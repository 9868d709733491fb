import Mathlib.Data.List.Forall2
import Mathlib.Data.List.Perm.Basic
import Mathlib.Logic.Relation
import FieldScript.Proofs.FiniteNumbers
import FieldScript.Proofs.Stitching

/-!
# What stitching makes of segments

A polyline is drawn along a group of links: its edges run along their
segments, one each, in order (`Threads`). The groups of all polylines
partition the links (`exists_groups`).

Where at most two ends lie at each key, a trail leaves no end behind at
the keys on its way (`Trail.spent`): an end at which it enters and one at
which it leaves are all there are, and at its own end it is stuck. So no
two groups meet (`exists_groups`), while the links of a group follow each
other: the groups are the connected components.
-/

open Relation (ReflTransGen)
open scoped List

namespace FieldScript
namespace Contour

/-! ## Edges -/

/-- The same point, or points with the same key. -/
def SameEnd (decimals : Int) (p q : Point2 Float) : Prop :=
  p = q ∨ sameKey (keyOf decimals p) (keyOf decimals q) = true

/-- The edge runs between the ends of the segment, one way or the other. -/
def RunsAlong (decimals : Int) (e s : Segment Float) : Prop :=
  (SameEnd decimals e.1 s.1 ∧ SameEnd decimals e.2 s.2) ∨
    (SameEnd decimals e.1 s.2 ∧ SameEnd decimals e.2 s.1)

theorem RunsAlong.swap {decimals : Int} {e s : Segment Float} (h : RunsAlong decimals e s) :
    RunsAlong decimals e.swap s :=
  h.symm.imp And.symm And.symm

/-- The edges of a polyline. -/
def edgesOf : List (Point2 Float) → List (Segment Float)
  | p :: q :: rest => (p, q) :: edgesOf (q :: rest)
  | _ => []

theorem edgesOf_append (xs : List (Point2 Float)) (p : Point2 Float) (ys : List (Point2 Float)) :
    edgesOf (xs ++ p :: ys) = edgesOf (xs ++ [p]) ++ edgesOf (p :: ys) := by
  induction xs with
  | nil => rfl
  | cons x xs ih =>
      cases xs with
      | nil => rfl
      | cons x' xs => exact congrArg ((x, x') :: ·) ih

theorem edgesOf_reverse (xs : List (Point2 Float)) :
    edgesOf xs.reverse = ((edgesOf xs).map Prod.swap).reverse := by
  induction xs with
  | nil => rfl
  | cons x xs ih =>
      cases xs with
      | nil => rfl
      | cons x' xs =>
          rw [List.reverse_cons] at ih ⊢
          rw [List.reverse_cons, List.append_assoc, List.singleton_append, edgesOf_append, ih]
          exact List.reverse_cons.symm

/-- The edges of a polyline along links. -/
abbrev DrawnAlong (decimals : Int) : List (Segment Float) → List Link → Prop :=
  List.Forall₂ fun e l => RunsAlong decimals e l.segment

theorem runsAlong_otherEnd {decimals : Int} {l : Link} {p : Point2 Float}
    (hl : l.Sound decimals) (htouch : l.touches (keyOf decimals p) = true) :
    RunsAlong decimals (p, (l.otherEnd (keyOf decimals p)).1) l.segment := by
  rw [Link.otherEnd]
  split
  · rename_i hfirst
    exact Or.inl ⟨Or.inr (sameKey_symm (hl.1 ▸ hfirst)), Or.inl rfl⟩
  · rename_i hfirst
    rw [Link.touches, Bool.or_eq_true] at htouch
    have hlast := htouch.resolve_left hfirst
    exact Or.inr ⟨Or.inr (sameKey_symm (hl.2 ▸ hlast)), Or.inl rfl⟩

theorem Trail.drawn {decimals : Int} {p : Point2 Float} {used : List Link}
    {ps : List (Point2 Float)} (h : Trail (keyOf decimals p) used ps)
    (hsound : ∀ l ∈ used, l.Sound decimals) : DrawnAlong decimals (edgesOf (p :: ps)) used := by
  generalize hk : keyOf decimals p = k at h
  induction h generalizing p with
  | stop k => exact .nil
  | @step k l ls ps htouch _ ih =>
      obtain ⟨hl, hsound⟩ := List.forall_mem_cons.mp hsound
      subst hk
      exact .cons (runsAlong_otherEnd hl htouch) (ih hsound (hl.otherEnd _).symm)

/-! ## Polylines along links -/

/-- Some end of the one link has the key of some end of the other. -/
def Link.Meets (l m : Link) : Prop := ∃ k, l.touches k = true ∧ m.touches k = true

theorem Link.Meets.symm {l m : Link} : l.Meets m → m.Meets l :=
  fun ⟨k, hl, hm⟩ => ⟨k, hm, hl⟩

/-- The polyline repeats its first end. -/
def Closed (decimals : Int) (line : List (Point2 Float)) : Prop :=
  ∃ p q, line.head? = some p ∧ line.getLast? = some q ∧
    sameKey (keyOf decimals p) (keyOf decimals q) = true

/-- The polyline is drawn along the links, which follow each other. The
ends of a closed one leave no trace in the degrees. -/
structure Threads (decimals : Int) (line : List (Point2 Float)) (group : List Link) : Prop where
  edges : DrawnAlong decimals (edgesOf line) group
  nonempty : group ≠ []
  linked : group.IsChain Link.Meets
  keyed : Closed decimals line → ∀ l ∈ group, l.Keyed
  even : Closed decimals line → ∀ K, degree K group % 2 = 0

theorem touches_last {l : Link} (h : Keyed l.last) : l.touches l.last = true := by
  rw [Link.touches, Bool.or_eq_true]
  exact Or.inr h

theorem touches_first {l : Link} (h : Keyed l.first) : l.touches l.first = true := by
  rw [Link.touches, Bool.or_eq_true]
  exact Or.inl h

theorem touches_otherEnd {l : Link} {k : Key} (h : Keyed (l.otherEnd k).2) :
    l.touches (l.otherEnd k).2 = true := by
  rw [Link.otherEnd] at h ⊢
  split at h
  · rename_i hfirst
    rw [if_pos hfirst]
    exact touches_last h
  · rename_i hfirst
    rw [if_neg hfirst]
    exact touches_first h

theorem Trail.linked {k : Key} {used : List Link} {ps : List (Point2 Float)}
    (h : Trail k used ps) {l : Link} (hl : Keyed k → l.touches k = true) :
    (l :: used).IsChain Link.Meets := by
  induction h generalizing l with
  | stop k => exact List.isChain_singleton l
  | @step k m ls ps htouch _ ih =>
      exact List.isChain_cons_cons.mpr ⟨⟨k, hl (keyed_of_touches htouch), htouch⟩,
        ih touches_otherEnd⟩

/-- A polyline that is taken is drawn along its links. -/
theorem Taken.threads {decimals : Int} {l : Link} {links : List Link}
    {backward : List (Point2 Float)} {before : List Link} {forward : List (Point2 Float)}
    {after rest : List Link} (h : Taken decimals l links backward before forward after rest) :
    Threads decimals (lineOf backward l forward) (before.reverse ++ l :: after) := by
  obtain ⟨hl, hbefore, hafter, -⟩ := h.sound_parts
  have hends : Closed decimals (lineOf backward l forward) →
      sameKey (endKey decimals l.first backward) (endKey decimals l.last forward) = true := by
    rintro ⟨p, q, hp, hq, hsame⟩
    obtain ⟨p', q', hp', hq', hkp, hkq⟩ := lineOf_ends hl backward forward
    obtain rfl := Option.some.inj (hp.symm.trans hp')
    obtain rfl := Option.some.inj (hq.symm.trans hq')
    rwa [hkp, hkq] at hsame
  exact {
    edges := by
      have hline : edgesOf (lineOf backward l forward) =
          ((edgesOf (l.segment.1 :: backward)).map Prod.swap).reverse
            ++ (l.segment.1, l.segment.2) :: edgesOf (l.segment.2 :: forward) := by
        rw [lineOf, edgesOf_append, ← List.reverse_cons, edgesOf_reverse]
        rfl
      rw [hline]
      refine List.rel_append (List.forall₂_reverse_iff.mpr (List.forall₂_map_left_iff.mpr ?_))
        (.cons (Or.inl ⟨Or.inl rfl, Or.inl rfl⟩) (Trail.drawn (hl.2 ▸ h.trail_forward) hafter))
      exact (Trail.drawn (hl.1 ▸ h.trail_backward) hbefore).imp fun _ _ hruns => hruns.swap
    nonempty := List.append_ne_nil_of_right_ne_nil _ (List.cons_ne_nil _ _)
    linked := by
      refine List.isChain_split.mpr ⟨?_, h.trail_forward.linked touches_last⟩
      rw [← List.reverse_cons, List.isChain_reverse]
      exact (h.trail_backward.linked touches_first).imp fun _ _ hmeets => hmeets.symm
    keyed := fun hclosed => by
      obtain ⟨hfirst, hlast⟩ := keyed_of_sameKey (hends hclosed)
      obtain ⟨hlk, hbeforek, hafterk⟩ := h.keyed hfirst hlast
      exact List.forall_mem_append.mpr ⟨fun m hm => hbeforek m (List.mem_reverse.mp hm),
        List.forall_mem_cons.mpr ⟨hlk, hafterk⟩⟩
    even := fun hclosed K => by
      have hb := h.trail_backward.parity hbefore K
      have hf := h.trail_forward.parity hafter K
      rw [atKey_congr (hends hclosed)] at hb
      rw [degree_append, degree_perm before.reverse_perm, degree_cons, Link.ends]
      omega }

/-! ## Groups that do not meet -/

/-- No key has ends of both lists of links. -/
def Apart (ls ms : List Link) : Prop := ∀ K, degree K ls = 0 ∨ degree K ms = 0

theorem atKey_or_degree {a : Key} {ls : List Link} (h : degree a ls = 0) (K : Key) :
    atKey a K = 0 ∨ degree K ls = 0 := by
  by_cases hsame : sameKey a K = true
  · exact Or.inr (degree_congr hsame ls ▸ h)
  · exact Or.inl (if_neg hsame)

/-- One of the two ends at a key is that of the link. -/
theorem degree_le_one {l : Link} {k : Key} {ls : List Link}
    (hl : Keyed k → l.touches k = true) (hle : degree k (l :: ls) ≤ 2) : degree k ls ≤ 1 := by
  by_cases hk : Keyed k
  · have hone := one_le_ends (hl hk)
    rw [degree_cons] at hle
    omega
  · rw [degree_of_unkeyed hk]
    exact Nat.zero_le 1

/-- A trail that starts at the last end of its key, where at most two ends
lie at each key, leaves no end at the keys on its way. -/
theorem Trail.spent {decimals : Int} {k : Key} {used rest : List Link} {ps : List (Point2 Float)}
    (h : Trail k used ps) (hsound : ∀ l ∈ used, l.Sound decimals)
    (hle : ∀ K, degree K (used ++ rest) ≤ 2) (hk : degree k (used ++ rest) ≤ 1)
    (hend : degree (endKey decimals k ps) rest = 0) : degree k rest = 0 ∧ Apart used rest := by
  induction h with
  | stop k => exact ⟨hend, fun K => Or.inl rfl⟩
  | @step k l ls ps htouch _ ih =>
      obtain ⟨hl, hsound⟩ := List.forall_mem_cons.mp hsound
      rw [endKey_cons (hl.otherEnd k)] at hend
      have hone := one_le_ends htouch
      rw [List.cons_append, degree_cons, degree_append] at hk
      have hrest : degree k rest = 0 := by omega
      obtain ⟨hother, hapart⟩ := ih hsound
        (fun K => le_trans (Nat.le_add_left _ _) (hle K)) (degree_le_one touches_otherEnd (hle _))
        hend
      refine ⟨hrest, fun K => ?_⟩
      rw [degree_cons, ends_otherEnd htouch]
      rcases atKey_or_degree hrest K with h1 | h1
      · rcases atKey_or_degree hother K with h2 | h2
        · exact (hapart K).imp_left fun h3 => by rw [h1, h2, h3]
        · exact Or.inr h2
      · exact Or.inr h1

/-- The links of a polyline and those that are left do not meet. -/
theorem Taken.apart {decimals : Int} {l : Link} {links : List Link}
    {backward : List (Point2 Float)} {before : List Link} {forward : List (Point2 Float)}
    {after rest : List Link} (h : Taken decimals l links backward before forward after rest)
    (hle : ∀ K, degree K (l :: links) ≤ 2) : Apart (before.reverse ++ l :: after) rest := by
  obtain ⟨-, hbefore, hafter, -⟩ := h.sound_parts
  have hle' : ∀ K, degree K (after ++ (before ++ rest)) ≤ 2 := fun K =>
    degree_perm h.perm K ▸ le_trans (Nat.le_add_left _ _) (hle K)
  obtain ⟨hlast, hafter⟩ := h.trail_forward.spent hafter hle'
    (degree_perm h.perm _ ▸ degree_le_one touches_last (hle _)) h.stuck_forward
  have hright : ∀ K, degree K (before ++ rest) ≤ degree K links := by
    intro K
    rw [degree_perm h.perm, degree_append K after]
    exact Nat.le_add_left _ _
  obtain ⟨hfirst, hbefore⟩ := h.trail_backward.spent hbefore
    (fun K => (hright K).trans (le_trans (Nat.le_add_left _ _) (hle K)))
    ((hright _).trans (degree_le_one touches_first (hle _))) h.stuck_backward
  intro K
  by_cases hrest : degree K rest = 0
  · exact Or.inr hrest
  have hparts : degree K (before ++ rest) ≠ 0 := by
    rw [degree_append]
    omega
  refine Or.inl ?_
  rw [degree_append, degree_perm before.reverse_perm, degree_cons, Link.ends,
    (hbefore K).resolve_right hrest, (hafter K).resolve_right hparts,
    (atKey_or_degree hfirst K).resolve_right hrest, (atKey_or_degree hlast K).resolve_right hparts]

theorem degree_le_flatten {group : List Link} {groups : List (List Link)} (h : group ∈ groups)
    (K : Key) : degree K group ≤ degree K groups.flatten := by
  obtain ⟨before, after, rfl⟩ := List.append_of_mem h
  rw [List.flatten_append, List.flatten_cons, degree_append, degree_append]
  omega

/-- The polylines partition the links; where at most two ends lie at each
key, links of different polylines do not meet. -/
theorem exists_groups {decimals : Int} {fuel : Nat} {links : List Link}
    (hsound : ∀ l ∈ links, l.Sound decimals) (hfuel : links.length ≤ fuel) :
    ∃ groups, List.Forall₂ (Threads decimals) (stitchLinks fuel links) groups ∧
      groups.flatten.Perm links ∧ ((∀ K, degree K links ≤ 2) → groups.Pairwise Apart) := by
  induction fuel generalizing links with
  | zero =>
      rw [List.length_eq_zero_iff.mp (Nat.le_zero.mp hfuel)]
      exact ⟨[], .nil, .nil, fun _ => .nil⟩
  | succ fuel ih =>
      cases links with
      | nil => exact ⟨[], .nil, .nil, fun _ => .nil⟩
      | cons l links =>
          obtain ⟨backward, before, forward, after, rest, htaken, hstep⟩ :=
            exists_taken hsound fuel
          obtain ⟨-, -, -, hrest⟩ := htaken.sound_parts
          have hlen := htaken.length_rest
          rw [List.length_cons] at hfuel
          obtain ⟨groups, hthreads, hgroups, hapart⟩ := ih hrest (by omega)
          refine ⟨(before.reverse ++ l :: after) :: groups, ?_, ?_, fun hle => ?_⟩
          · rw [hstep]
            exact .cons htaken.threads hthreads
          · calc (before.reverse ++ l :: after) ++ groups.flatten
              _ ~ (l :: after ++ before.reverse) ++ groups.flatten :=
                  List.perm_append_comm.append_right _
              _ ~ (l :: after ++ before) ++ rest :=
                  (before.reverse_perm.append_left _).append hgroups
              _ = l :: (after ++ (before ++ rest)) := by
                  rw [List.append_assoc, List.cons_append]
              _ ~ l :: links := htaken.perm.symm.cons l
          · refine List.pairwise_cons.mpr ⟨fun group hgroup K => ?_, hapart fun K => ?_⟩
            · have hpart := degree_le_flatten hgroup K
              rw [degree_perm hgroups] at hpart
              rcases htaken.apart hle K with hgroup | hrest
              · exact Or.inl hgroup
              · exact Or.inr (by omega)
            · have hall := hle K
              rw [htaken.degree_eq] at hall
              omega

end Contour
end FieldScript
