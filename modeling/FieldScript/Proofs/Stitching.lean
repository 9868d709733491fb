import FieldScript.Contour
import FieldScript.Proofs.FloatOrder

/-!
# Where polylines end

Stitching walks along links that have not been used and stops where none
is left. What it needs to know about the links is a parity: if an even
number of link ends lie at every key but those of a set `B`, a walk can
get stuck only where it started or at a key of `B`
(`enclosed_of_mem_stitchLinks`).

The count that carries the induction is `degree`: the links of a walk make
a trail, which has an odd degree at its two ends and nowhere else
(`Trail.parity`), and no link is left at the key where the walk stops
(`walk_stuck`). What one polyline takes from the links is said once, by
`Taken`.

A key with a coordinate that is not-a-number is not even the same as
itself, so that nothing is joined there. Such keys are the only obstacle,
and each of them ends a polyline (`exists_line_of_unkeyed`).
-/

namespace FieldScript
namespace Contour

/-! ## Keys -/

/-- The key is the same as itself: no coordinate is not-a-number. -/
def Keyed (k : Key) : Prop := sameKey k k = true

section Keys

variable {a b c k : Key}

theorem sameKey_iff : sameKey a b = true ↔ (a.1 == b.1) = true ∧ (a.2 == b.2) = true := by
  rw [sameKey, Bool.and_eq_true]

theorem sameKey_symm (h : sameKey a b = true) : sameKey b a = true := by
  obtain ⟨h1, h2⟩ := sameKey_iff.mp h
  exact sameKey_iff.mpr ⟨Binary64.beq_symm h1, Binary64.beq_symm h2⟩

theorem sameKey_trans (h : sameKey a b = true) (h' : sameKey b c = true) :
    sameKey a c = true := by
  obtain ⟨h1, h2⟩ := sameKey_iff.mp h
  obtain ⟨h1', h2'⟩ := sameKey_iff.mp h'
  exact sameKey_iff.mpr ⟨Binary64.beq_trans h1 h1', Binary64.beq_trans h2 h2'⟩

theorem sameKey_left (h : sameKey a b = true) : sameKey a k = sameKey b k := by
  rw [Bool.eq_iff_iff]
  exact ⟨sameKey_trans (sameKey_symm h), sameKey_trans h⟩

theorem sameKey_right (h : sameKey a b = true) : sameKey k a = sameKey k b := by
  rw [Bool.eq_iff_iff]
  exact ⟨fun h' => sameKey_trans h' h, fun h' => sameKey_trans h' (sameKey_symm h)⟩

theorem keyed_of_sameKey (h : sameKey a b = true) : Keyed a ∧ Keyed b :=
  ⟨sameKey_trans h (sameKey_symm h), sameKey_trans (sameKey_symm h) h⟩

end Keys

/-! ## Degrees -/

/-- One, if the keys are the same. -/
def atKey (a k : Key) : Nat := if sameKey a k then 1 else 0

theorem atKey_congr {a b : Key} (h : sameKey a b = true) (k : Key) : atKey a k = atKey b k := by
  rw [atKey, atKey, sameKey_left h]

theorem atKey_self {k : Key} (h : Keyed k) : atKey k k = 1 := if_pos h

/-- One more end that makes the number even is at the key. -/
theorem sameKey_of_even {a k : Key} (h : (atKey a k + 1) % 2 = 0) : sameKey a k = true := by
  by_contra hne
  rw [atKey, if_neg hne] at h
  omega

/-- How many ends of the link lie at a key. -/
def Link.ends (l : Link) (k : Key) : Nat := atKey l.first k + atKey l.last k

/-- How many ends of the links lie at a key. -/
def degree (k : Key) (ls : List Link) : Nat := (ls.map fun l => l.ends k).sum

theorem degree_cons (k : Key) (l : Link) (ls : List Link) :
    degree k (l :: ls) = l.ends k + degree k ls := rfl

theorem degree_append (k : Key) (ls ms : List Link) :
    degree k (ls ++ ms) = degree k ls + degree k ms := by
  rw [degree, List.map_append, List.sum_append_nat, degree, degree]

theorem degree_perm {ls ls' : List Link} (h : ls.Perm ls') (k : Key) : degree k ls = degree k ls' :=
  (h.map _).sum_nat

theorem degree_congr {a b : Key} (h : sameKey a b = true) (ls : List Link) :
    degree a ls = degree b ls := by
  have hends : ∀ l : Link, l.ends a = l.ends b := by
    intro l
    rw [Link.ends, Link.ends, atKey, atKey, atKey, atKey, sameKey_right h, sameKey_right h]
  rw [degree, degree, funext hends]

theorem ends_of_not_touches {l : Link} {k : Key} (h : l.touches k = false) : l.ends k = 0 := by
  rw [Link.touches, Bool.or_eq_false_iff] at h
  rw [Link.ends, atKey, atKey, h.1, h.2]
  rfl

theorem takeTouching_none {k : Key} {ls : List Link} (h : takeTouching k ls = none) :
    degree k ls = 0 := by
  induction ls with
  | nil => rfl
  | cons l rest ih =>
      rw [takeTouching] at h
      split at h
      · cases h
      · rename_i htouch
        rw [degree_cons, ends_of_not_touches (by simpa using htouch),
          ih (Option.map_eq_none_iff.mp h)]

theorem takeTouching_some {k : Key} {ls rest : List Link} {l : Link}
    (h : takeTouching k ls = some (l, rest)) : l.touches k = true ∧ ls.Perm (l :: rest) := by
  induction ls generalizing rest with
  | nil => cases h
  | cons m ms ih =>
      rw [takeTouching] at h
      split at h
      · rename_i htouch
        obtain ⟨rfl, rfl⟩ := Prod.mk.inj (Option.some.inj h)
        exact ⟨htouch, List.Perm.refl _⟩
      · obtain ⟨⟨n, rest'⟩, hn, heq⟩ := Option.map_eq_some_iff.mp h
        obtain ⟨rfl, rfl⟩ := Prod.mk.inj heq
        obtain ⟨htouch, hperm⟩ := ih hn
        exact ⟨htouch, (hperm.cons m).trans (List.Perm.swap _ _ _)⟩

theorem one_le_ends {l : Link} {k : Key} (h : l.touches k = true) : 1 ≤ l.ends k := by
  rw [Link.touches, Bool.or_eq_true] at h
  rw [Link.ends, atKey, atKey]
  rcases h with h | h <;> rw [if_pos h] <;> omega

/-- A link that is entered at one end is left at the other. -/
theorem ends_otherEnd {l : Link} {k : Key} (h : l.touches k = true) (K : Key) :
    l.ends K = atKey k K + atKey (l.otherEnd k).2 K := by
  rw [Link.ends, Link.otherEnd]
  split
  · rename_i hfirst
    rw [atKey_congr hfirst]
  · rename_i hfirst
    rw [Link.touches, Bool.or_eq_true] at h
    rw [atKey_congr (h.resolve_left hfirst), Nat.add_comm]

theorem degree_of_unkeyed {k : Key} (h : ¬ Keyed k) (ls : List Link) : degree k ls = 0 := by
  have hat : ∀ a, atKey a k = 0 := fun a => if_neg fun hs => h (keyed_of_sameKey hs).2
  induction ls with
  | nil => rfl
  | cons l rest ih => rw [degree_cons, Link.ends, hat, hat, ih]

theorem keyed_of_touches {l : Link} {k : Key} (h : l.touches k = true) : Keyed k := by
  rw [Link.touches, Bool.or_eq_true] at h
  rcases h with h | h <;> exact (keyed_of_sameKey h).2

/-- All ends of the link have keys that are the same as themselves. -/
def Link.Keyed (l : Link) : Prop := Contour.Keyed l.first ∧ Contour.Keyed l.last

/-- A link is entered at a key that is the same as itself, so that it is
left at the other one. -/
theorem unkeyed_otherEnd {l : Link} {k : Key} (htouch : l.touches k = true) (hl : ¬ l.Keyed) :
    ¬ Keyed (l.otherEnd k).2 := by
  rw [Link.otherEnd]
  split
  · rename_i hfirst
    exact fun hlast => hl ⟨(keyed_of_sameKey hfirst).1, hlast⟩
  · rename_i hfirst
    rw [Link.touches, Bool.or_eq_true] at htouch
    have hlast := htouch.resolve_left hfirst
    exact fun hfirst => hl ⟨hfirst, (keyed_of_sameKey hlast).1⟩

/-! ## Walks -/

/-- Where a walk from a key stands after these points. -/
def endKey (decimals : Int) (k : Key) (ps : List (Point2 Float)) : Key :=
  match ps.getLast? with
  | none => k
  | some p => keyOf decimals p

/-- The keys of the link are those of its ends. -/
def Link.Sound (decimals : Int) (l : Link) : Prop :=
  l.first = keyOf decimals l.segment.1 ∧ l.last = keyOf decimals l.segment.2

theorem Link.sound_ofSegment (decimals : Int) (s : Segment Float) :
    (Link.ofSegment decimals s).Sound decimals := ⟨rfl, rfl⟩

theorem Link.Sound.otherEnd {decimals : Int} {l : Link} (h : l.Sound decimals) (k : Key) :
    (l.otherEnd k).2 = keyOf decimals (l.otherEnd k).1 := by
  rw [Link.otherEnd]
  split
  · exact h.2
  · exact h.1

theorem endKey_cons {decimals : Int} {k k' : Key} {p : Point2 Float} (hp : k' = keyOf decimals p)
    (ps : List (Point2 Float)) : endKey decimals k (p :: ps) = endKey decimals k' ps := by
  cases ps with
  | nil => exact hp.symm
  | cons q qs =>
      rw [endKey, endKey, List.getLast?_cons_cons]
      cases hlast : (q :: qs).getLast? with
      | none => simp at hlast
      | some r => rfl

/-- A trail along links and the points on its way: each link is entered at
the key where the one before it has been left. -/
inductive Trail : Key → List Link → List (Point2 Float) → Prop
  | stop (k : Key) : Trail k [] []
  | step {k : Key} {l : Link} {ls : List Link} {ps : List (Point2 Float)}
      (htouch : l.touches k = true) (hrest : Trail (l.otherEnd k).2 ls ps) :
      Trail k (l :: ls) ((l.otherEnd k).1 :: ps)

/-- A walk is a trail along the links that it uses up. -/
theorem exists_trail (fuel : Nat) (k : Key) (links : List Link) :
    ∃ used, Trail k used (walk fuel k links).1 ∧ links.Perm (used ++ (walk fuel k links).2) := by
  induction fuel generalizing k links with
  | zero => exact ⟨[], .stop k, List.Perm.refl _⟩
  | succ fuel ih =>
      rw [walk]
      split
      · exact ⟨[], .stop k, List.Perm.refl _⟩
      · rename_i l rest htake
        obtain ⟨htouch, hperm⟩ := takeTouching_some htake
        obtain ⟨used, htrail, hused⟩ := ih (l.otherEnd k).2 rest
        exact ⟨l :: used, .step htouch htrail, hperm.trans (hused.cons l)⟩

/-- A walk stops where no link is left. -/
theorem walk_stuck {decimals : Int} {fuel : Nat} {k : Key} {links : List Link}
    (hsound : ∀ l ∈ links, l.Sound decimals) (hfuel : links.length ≤ fuel) :
    degree (endKey decimals k (walk fuel k links).1) (walk fuel k links).2 = 0 := by
  induction fuel generalizing k links with
  | zero =>
      rw [List.length_eq_zero_iff.mp (Nat.le_zero.mp hfuel)]
      rfl
  | succ fuel ih =>
      rw [walk]
      split
      · rename_i htake
        exact takeTouching_none htake
      · rename_i l rest htake
        obtain ⟨htouch, hperm⟩ := takeTouching_some htake
        obtain ⟨hl, hrest⟩ := List.forall_mem_cons.mp fun m hm => hsound m (hperm.symm.subset hm)
        have hlen := hperm.length_eq
        rw [List.length_cons] at hlen
        dsimp only
        rw [endKey_cons (hl.otherEnd k)]
        exact ih hrest (by omega)

namespace Trail

variable {decimals : Int} {k : Key} {used : List Link} {ps : List (Point2 Float)}

/-- An odd number of ends lies at the two ends of a trail only. -/
theorem parity (h : Trail k used ps) (hsound : ∀ l ∈ used, l.Sound decimals) (K : Key) :
    (degree K used + atKey k K + atKey (endKey decimals k ps) K) % 2 = 0 := by
  induction h with
  | stop k =>
      show (0 + atKey k K + atKey k K) % 2 = 0
      omega
  | @step k l ls ps htouch _ ih =>
      obtain ⟨hl, hsound⟩ := List.forall_mem_cons.mp hsound
      have hrest := ih hsound
      rw [endKey_cons (hl.otherEnd k), degree_cons, ends_otherEnd htouch]
      omega

/-- What holds of the start and of the ends of all links holds of the end. -/
theorem holds_endKey {P : Key → Prop} (h : Trail k used ps)
    (hsound : ∀ l ∈ used, l.Sound decimals) (hk : P k)
    (hused : ∀ l ∈ used, P l.first ∧ P l.last) : P (endKey decimals k ps) := by
  induction h with
  | stop k => exact hk
  | @step k l ls ps _ _ ih =>
      obtain ⟨hl, hsound⟩ := List.forall_mem_cons.mp hsound
      obtain ⟨hends, hused⟩ := List.forall_mem_cons.mp hused
      rw [endKey_cons (hl.otherEnd k)]
      refine ih hsound ?_ hused
      rw [Link.otherEnd]
      split
      · exact hends.2
      · exact hends.1

theorem keyed_start (h : Trail k used ps) (hend : Keyed (endKey decimals k ps)) : Keyed k := by
  cases h with
  | stop => exact hend
  | step htouch _ => exact keyed_of_touches htouch

/-- A trail that uses a link with an unkeyed end stops there. -/
theorem keyed (h : Trail k used ps) (hsound : ∀ l ∈ used, l.Sound decimals)
    (hend : Keyed (endKey decimals k ps)) : ∀ l ∈ used, l.Keyed := by
  induction h with
  | stop k => exact List.forall_mem_nil _
  | @step k l ls ps htouch hrest ih =>
      obtain ⟨hl, hsound⟩ := List.forall_mem_cons.mp hsound
      rw [endKey_cons (hl.otherEnd k)] at hend
      refine List.forall_mem_cons.mpr ⟨?_, ih hsound hend⟩
      by_contra hunkeyed
      exact unkeyed_otherEnd htouch hunkeyed (hrest.keyed_start hend)

/-- A trail from a key without links goes nowhere. -/
theorem endKey_of_degree (h : Trail k used ps) (hnone : degree k used = 0) :
    endKey decimals k ps = k := by
  cases h with
  | stop => rfl
  | step htouch _ =>
      have hone := one_le_ends htouch
      rw [degree_cons] at hnone
      omega

end Trail

/-! ## Polylines -/

/-- The polyline of a link between the walks from its two ends. -/
def lineOf (backward : List (Point2 Float)) (l : Link) (forward : List (Point2 Float)) :
    List (Point2 Float) :=
  backward.reverse ++ l.segment.1 :: l.segment.2 :: forward

/-- The ends of a polyline are where the walks have stopped. -/
theorem lineOf_ends {decimals : Int} {l : Link} (hl : l.Sound decimals)
    (backward forward : List (Point2 Float)) :
    ∃ p q, (lineOf backward l forward).head? = some p ∧
      (lineOf backward l forward).getLast? = some q ∧
      keyOf decimals p = endKey decimals l.first backward ∧
      keyOf decimals q = endKey decimals l.last forward := by
  have hhead : ∃ p, (lineOf backward l forward).head? = some p ∧
      keyOf decimals p = endKey decimals l.first backward := by
    rw [lineOf, List.head?_append, List.head?_reverse, endKey, List.head?_cons]
    cases backward.getLast? with
    | none => exact ⟨_, rfl, hl.1.symm⟩
    | some p => exact ⟨p, rfl, rfl⟩
  have hlast : ∃ q, (lineOf backward l forward).getLast? = some q ∧
      keyOf decimals q = endKey decimals l.last forward := by
    rw [lineOf, List.getLast?_append, List.getLast?_cons_cons, List.getLast?_cons, endKey]
    cases forward.getLast? with
    | none => exact ⟨_, rfl, hl.2.symm⟩
    | some q => exact ⟨q, rfl, rfl⟩
  obtain ⟨p, hp, hkp⟩ := hhead
  obtain ⟨q, hq, hkq⟩ := hlast
  exact ⟨p, q, hp, hq, hkp, hkq⟩

/-- A polyline is taken from links along the first of them, which is `l`,
and the trails from its two ends; each trail goes on until no link is left
where it stands. -/
structure Taken (decimals : Int) (l : Link) (links : List Link) (backward : List (Point2 Float))
    (before : List Link) (forward : List (Point2 Float)) (after rest : List Link) : Prop where
  sound : ∀ m ∈ l :: links, m.Sound decimals
  perm : links.Perm (after ++ (before ++ rest))
  trail_backward : Trail l.first before backward
  trail_forward : Trail l.last after forward
  stuck_backward : degree (endKey decimals l.first backward) rest = 0
  stuck_forward : degree (endKey decimals l.last forward) (before ++ rest) = 0

theorem exists_taken {decimals : Int} {l : Link} {links : List Link}
    (hsound : ∀ m ∈ l :: links, m.Sound decimals) (fuel : Nat) :
    ∃ backward before forward after rest,
      Taken decimals l links backward before forward after rest ∧
      stitchLinks (fuel + 1) (l :: links)
        = lineOf backward l forward :: stitchLinks fuel rest := by
  obtain ⟨-, hlinks⟩ := List.forall_mem_cons.mp hsound
  obtain ⟨after, hforward, hafter⟩ := exists_trail links.length l.last links
  have hstuck := walk_stuck (k := l.last) hlinks (Nat.le_refl _)
  generalize hw : walk links.length l.last links = w at hforward hafter hstuck
  obtain ⟨before, hbackward, hbefore⟩ := exists_trail w.2.length l.first w.2
  have hlinks' : ∀ m ∈ w.2, m.Sound decimals := fun m hm =>
    hlinks m (hafter.symm.subset (List.mem_append_right _ hm))
  have hstuck' := walk_stuck (k := l.first) hlinks' (Nat.le_refl _)
  generalize hw' : walk w.2.length l.first w.2 = w' at hbackward hbefore hstuck'
  refine ⟨w'.1, before, w.1, after, w'.2, ⟨hsound, hafter.trans (hbefore.append_left after),
    hbackward, hforward, hstuck', degree_perm hbefore _ ▸ hstuck⟩, ?_⟩
  rw [stitchLinks, hw]
  dsimp only
  rw [hw']
  rfl

namespace Taken

variable {decimals : Int} {l : Link} {links : List Link} {backward : List (Point2 Float)}
  {before : List Link} {forward : List (Point2 Float)} {after rest : List Link}

theorem sound_parts (h : Taken decimals l links backward before forward after rest) :
    l.Sound decimals ∧ (∀ m ∈ before, m.Sound decimals) ∧ (∀ m ∈ after, m.Sound decimals) ∧
      ∀ m ∈ rest, m.Sound decimals := by
  obtain ⟨hl, hlinks⟩ := List.forall_mem_cons.mp h.sound
  have hparts : ∀ m ∈ after ++ (before ++ rest), m.Sound decimals := fun m hm =>
    hlinks m (h.perm.symm.subset hm)
  obtain ⟨hafter, hrest⟩ := List.forall_mem_append.mp hparts
  obtain ⟨hbefore, hrest⟩ := List.forall_mem_append.mp hrest
  exact ⟨hl, hbefore, hafter, hrest⟩

theorem length_rest (h : Taken decimals l links backward before forward after rest) :
    rest.length ≤ links.length := by
  rw [h.perm.length_eq, List.length_append, List.length_append]
  omega

theorem degree_eq (h : Taken decimals l links backward before forward after rest) (K : Key) :
    degree K (l :: links) = l.ends K + degree K after + degree K before + degree K rest := by
  rw [degree_cons, degree_perm h.perm, degree_append, degree_append]
  omega

/-- If the polyline ends at keys that are the same as themselves, all its
links are keyed. -/
theorem keyed (h : Taken decimals l links backward before forward after rest)
    (hfirst : Keyed (endKey decimals l.first backward))
    (hlast : Keyed (endKey decimals l.last forward)) :
    l.Keyed ∧ (∀ m ∈ before, m.Keyed) ∧ ∀ m ∈ after, m.Keyed := by
  obtain ⟨-, hbefore, hafter, -⟩ := h.sound_parts
  exact ⟨⟨h.trail_backward.keyed_start hfirst, h.trail_forward.keyed_start hlast⟩,
    h.trail_backward.keyed hbefore hfirst, h.trail_forward.keyed hafter hlast⟩

end Taken

/-- The polyline is closed, or both its ends are at keys of `B`. -/
def Enclosed (decimals : Int) (B : Key → Prop) (line : List (Point2 Float)) : Prop :=
  ∃ p q, line.head? = some p ∧ line.getLast? = some q ∧
    (sameKey (keyOf decimals p) (keyOf decimals q) = true ∨
      (B (keyOf decimals p) ∧ B (keyOf decimals q)))

/-- An even number of ends lies at each key outside `B`. -/
def EvenOutside (B : Key → Prop) (links : List Link) : Prop :=
  ∀ K, ¬ B K → degree K links % 2 = 0

namespace Taken

variable {B : Key → Prop} {decimals : Int} {l : Link} {links : List Link}
  {backward : List (Point2 Float)} {before : List Link} {forward : List (Point2 Float)}
  {after rest : List Link}

/-- Outside `B`, the links that are left behind the forward trail have the
parity of its two stops, and those that are left in the end have that of the
ends of the polyline. -/
theorem parity_rest (h : Taken decimals l links backward before forward after rest)
    (heven : EvenOutside B (l :: links)) {K : Key} (hK : ¬ B K) :
    (atKey l.first K + atKey (endKey decimals l.last forward) K) % 2 = degree K (before ++ rest) % 2 ∧
      (atKey (endKey decimals l.last forward) K + atKey (endKey decimals l.first backward) K) % 2 =
        degree K rest % 2 := by
  obtain ⟨-, hbefore, hafter, -⟩ := h.sound_parts
  have hall := heven K hK
  have hforward := h.trail_forward.parity hafter K
  have hbackward := h.trail_backward.parity hbefore K
  rw [h.degree_eq, Link.ends] at hall
  rw [degree_append]
  omega

/-- The ends of a polyline that is taken have the same key, or both are at
keys of `B`. -/
theorem closed_or_outside (h : Taken decimals l links backward before forward after rest)
    (hends : ∀ m ∈ l :: links, (Keyed m.first ∨ B m.first) ∧ (Keyed m.last ∨ B m.last))
    (heven : EvenOutside B (l :: links)) :
    sameKey (endKey decimals l.first backward) (endKey decimals l.last forward) = true ∨
      (B (endKey decimals l.first backward) ∧ B (endKey decimals l.last forward)) := by
  obtain ⟨-, hbefore, hafter, -⟩ := h.sound_parts
  obtain ⟨hl, hlinks⟩ := List.forall_mem_cons.mp hends
  obtain ⟨hafterk, hrestk⟩ := List.forall_mem_append.mp fun m hm => hlinks m (h.perm.symm.subset hm)
  have hkeyed := h.trail_forward.holds_endKey (P := fun e => Keyed e ∨ B e) hafter hl.2 hafterk
  have hkeyed' := h.trail_backward.holds_endKey (P := fun e => Keyed e ∨ B e) hbefore hl.1
    fun m hm => hrestk m (List.mem_append_left _ hm)
  have hparity := fun K hK => h.parity_rest heven (K := K) hK
  have hstuck := h.stuck_forward
  have hstuck' := h.stuck_backward
  have hstays : degree l.first before = 0 → endKey decimals l.first backward = l.first :=
    h.trail_backward.endKey_of_degree
  generalize endKey decimals l.last forward = e at hkeyed hparity hstuck ⊢
  generalize endKey decimals l.first backward = e' at hkeyed' hparity hstuck' hstays ⊢
  by_cases he : B e
  · by_cases he' : B e'
    · exact Or.inr ⟨he', he⟩
    · have heven := (hparity e' he').2
      rw [hstuck', atKey_self (hkeyed'.resolve_right he')] at heven
      exact Or.inl (sameKey_symm (sameKey_of_even heven))
  · -- The forward walk has come back to the start, where no link is left.
    have heven := (hparity e he).1
    rw [hstuck, atKey_self (hkeyed.resolve_right he)] at heven
    have hsame := sameKey_of_even heven
    have hnone : degree l.first (before ++ rest) = 0 := by
      rw [degree_congr hsame, hstuck]
    rw [degree_append] at hnone
    rw [hstays (by omega)]
    exact Or.inl hsame

/-- Taking a polyline with such ends leaves an even number of link ends at
each key outside `B`. -/
theorem even_rest (h : Taken decimals l links backward before forward after rest)
    (hB : ∀ a b, sameKey a b = true → B a → B b) (heven : EvenOutside B (l :: links))
    (hends : sameKey (endKey decimals l.first backward) (endKey decimals l.last forward) = true ∨
      (B (endKey decimals l.first backward) ∧ B (endKey decimals l.last forward))) :
    EvenOutside B rest := by
  intro K hK
  have hparity := (h.parity_rest heven hK).2
  rcases hends with hsame | ⟨hfirst, hlast⟩
  · rw [atKey_congr hsame] at hparity
    omega
  · have hzero : ∀ k, B k → atKey k K = 0 := by
      intro k hk
      exact if_neg fun h => hK (hB k K h hk)
    rw [hzero _ hlast, hzero _ hfirst] at hparity
    omega

end Taken

/-- If an even number of link ends lies at every key outside `B` and none
of these keys has a coordinate that is not-a-number, each polyline is
closed or has both its ends at keys of `B`. -/
theorem enclosed_of_keyed_outside {decimals : Int} {B : Key → Prop} {fuel : Nat}
    {links : List Link} (hB : ∀ a b, sameKey a b = true → B a → B b)
    (hsound : ∀ l ∈ links, l.Sound decimals)
    (hkeyed : ∀ l ∈ links, (Keyed l.first ∨ B l.first) ∧ (Keyed l.last ∨ B l.last))
    (heven : EvenOutside B links) : ∀ line ∈ stitchLinks fuel links, Enclosed decimals B line := by
  induction fuel generalizing links with
  | zero => exact List.forall_mem_nil _
  | succ fuel ih =>
      cases links with
      | nil => exact List.forall_mem_nil _
      | cons l links =>
          obtain ⟨backward, before, forward, after, rest, htaken, hstep⟩ :=
            exists_taken hsound fuel
          obtain ⟨hl, -, -, hrest⟩ := htaken.sound_parts
          have hends := htaken.closed_or_outside hkeyed heven
          have hleft := htaken.even_rest hB heven hends
          rw [hstep]
          refine List.forall_mem_cons.mpr ⟨?_, ih hrest (fun m hm => hkeyed m ?_) hleft⟩
          · obtain ⟨p, q, hp, hq, hkp, hkq⟩ := lineOf_ends hl backward forward
            exact ⟨p, q, hp, hq, hkp ▸ hkq ▸ hends⟩
          · exact List.mem_cons_of_mem _ (htaken.perm.symm.subset
              (List.mem_append_right _ (List.mem_append_right _ hm)))

/-- If an even number of link ends lies at every key outside `B`, each
polyline is closed or has both its ends at keys of `B`. -/
theorem enclosed_of_mem_stitchLinks {decimals : Int} {B : Key → Prop} {fuel : Nat}
    {links : List Link} (hB : ∀ a b, sameKey a b = true → B a → B b)
    (hsound : ∀ l ∈ links, l.Sound decimals) (hkeyed : ∀ l ∈ links, l.Keyed)
    (heven : EvenOutside B links) : ∀ line ∈ stitchLinks fuel links, Enclosed decimals B line :=
  enclosed_of_keyed_outside hB hsound
    (fun l hl => ⟨Or.inl (hkeyed l hl).1, Or.inl (hkeyed l hl).2⟩) heven

/-! ## Ends at which nothing meets -/

/-- A link with an unkeyed end makes a polyline with an unkeyed end. -/
theorem exists_line_of_unkeyed {decimals : Int} {fuel : Nat} {links : List Link} {l : Link}
    (hsound : ∀ m ∈ links, m.Sound decimals) (hfuel : links.length ≤ fuel) (hl : l ∈ links)
    (hunkeyed : ¬ l.Keyed) : ∃ line ∈ stitchLinks fuel links, ∃ p,
      (line.head? = some p ∨ line.getLast? = some p) ∧ ¬ Keyed (keyOf decimals p) := by
  induction fuel generalizing links with
  | zero =>
      rw [List.length_eq_zero_iff.mp (Nat.le_zero.mp hfuel)] at hl
      cases hl
  | succ fuel ih =>
      cases links with
      | nil => cases hl
      | cons m links =>
          obtain ⟨backward, before, forward, after, rest, htaken, hstep⟩ :=
            exists_taken hsound fuel
          obtain ⟨hm, -, -, hrest⟩ := htaken.sound_parts
          rw [hstep]
          obtain ⟨p, q, hp, hq, hkp, hkq⟩ := lineOf_ends hm backward forward
          by_cases hfirst : Keyed (endKey decimals m.first backward)
          · by_cases hlast : Keyed (endKey decimals m.last forward)
            · -- No link of this polyline has an unkeyed end.
              obtain ⟨hmk, hbefore, hafter⟩ := htaken.keyed hfirst hlast
              have hleft : l ∈ rest := by
                rcases List.mem_cons.mp hl with rfl | hl
                · exact absurd hmk hunkeyed
                rcases List.mem_append.mp (htaken.perm.subset hl) with hl | hl
                · exact absurd (hafter l hl) hunkeyed
                rcases List.mem_append.mp hl with hl | hl
                · exact absurd (hbefore l hl) hunkeyed
                · exact hl
              have hlen := htaken.length_rest
              rw [List.length_cons] at hfuel
              obtain ⟨line, hline, hbad⟩ := ih hrest (by omega) hleft
              exact ⟨line, List.mem_cons_of_mem _ hline, hbad⟩
            · exact ⟨_, List.mem_cons_self, q, Or.inr hq, hkq ▸ hlast⟩
          · exact ⟨_, List.mem_cons_self, p, Or.inl hp, hkp ▸ hfirst⟩

end Contour
end FieldScript
