import FieldScript.Proofs.Polylines

/-!
# Stitching uses every segment once

The segments of an array are told apart by their positions, so that equal
ones count separately. `Stitches` says what the polylines of an array are:
their parts partition the positions, each polyline is drawn along the
segments of its part, and it is closed or ends where an odd number of
segment ends have the key. If no key belongs to more than two ends, the
parts are the connected components, and exactly the cycles are closed.

All of this holds whenever the keys can be found, that is, if every finite
coordinate is rounded to a finite number (`stitches_iff_fits`). Rounding to
places behind the point always does; rounding to a large power of ten need
not.
-/

open Relation (ReflTransGen)

namespace FieldScript
namespace Contour

/-! ## Positions -/

section Positions

variable {α β : Type} {R : α → β → Prop}

theorem exists_parts_of_flatten {xss : List (List α)} {ys : List β}
    (h : List.Forall₂ R xss.flatten ys) : ∃ yss, List.Forall₂ (List.Forall₂ R) xss yss ∧
      yss.flatten = ys := by
  induction xss generalizing ys with
  | nil =>
      cases h
      exact ⟨[], .nil, rfl⟩
  | cons xs xss ih =>
      have hflip := h.flip
      have htake := (List.forall₂_take_append _ _ _ hflip).flip
      obtain ⟨yss, hyss, hflat⟩ := ih (List.forall₂_drop_append _ _ _ hflip).flip
      refine ⟨ys.take xs.length :: yss, .cons htake hyss, ?_⟩
      rw [List.flatten_cons, hflat, List.take_append_drop]

/-- A partition of a list is one of its positions. -/
theorem exists_parts {xss : List (List α)} {xs : List α} (h : xss.flatten.Perm xs) :
    ∃ parts : List (List Nat), List.Forall₂ (List.Forall₂ fun x i => xs[i]? = some x) xss parts ∧
      parts.flatten.Perm (List.range xs.length) := by
  have hpositions : List.Forall₂ (fun x i => xs[i]? = some x) xs (List.range xs.length) := by
    refine List.forall₂_iff_get.mpr ⟨List.length_range.symm, fun i hi _ => ?_⟩
    rw [List.get_eq_getElem, List.get_eq_getElem, List.getElem_range]
    exact List.getElem?_eq_getElem hi
  obtain ⟨is, his, hperm⟩ := List.perm_comp_forall₂ h hpositions
  obtain ⟨parts, hparts, rfl⟩ := exists_parts_of_flatten his
  exact ⟨parts, hparts, hperm⟩

theorem pairwise_of_forall₂ {S : α → α → Prop} {T : β → β → Prop} {xs : List α} {ys : List β}
    (h : List.Forall₂ R xs ys) (hxs : xs.Pairwise S)
    (hST : ∀ {x x' y y'}, R x y → R x' y' → S x x' → T y y') : ys.Pairwise T := by
  obtain ⟨hlen, hget⟩ := List.forall₂_iff_get.mp h
  refine List.pairwise_iff_getElem.mpr fun i j hi hj hij => ?_
  exact hST (hget i (hlen ▸ hi) hi) (hget j (hlen ▸ hj) hj)
    (List.pairwise_iff_getElem.mp hxs i j _ _ hij)

theorem isChain_of_forall₂ {S : α → α → Prop} {T : β → β → Prop} {xs : List α} {ys : List β}
    (h : List.Forall₂ R xs ys) (hxs : xs.IsChain S)
    (hST : ∀ {x x' y y'}, R x y → R x' y' → S x x' → T y y') : ys.IsChain T := by
  obtain ⟨hlen, hget⟩ := List.forall₂_iff_get.mp h
  refine List.isChain_iff_getElem.mpr fun i hi => ?_
  exact hST (hget i (by omega) (by omega)) (hget (i + 1) (by omega) hi)
    (List.isChain_iff_getElem.mp hxs i (by omega))

theorem forall₂_comp {γ : Type} {S : β → γ → Prop} {T : α → γ → Prop} {xs : List α} {ys : List β}
    {zs : List γ} (hR : List.Forall₂ R xs ys) (hS : List.Forall₂ S ys zs)
    (hT : ∀ {x y z}, x ∈ xs → y ∈ ys → R x y → S y z → T x z) : List.Forall₂ T xs zs := by
  obtain ⟨hlen, hget⟩ := List.forall₂_iff_get.mp hR
  obtain ⟨hlen', hget'⟩ := List.forall₂_iff_get.mp hS
  refine List.forall₂_iff_get.mpr ⟨hlen.trans hlen', fun i hx hz => ?_⟩
  exact hT (List.get_mem _ _) (List.get_mem _ _) (hget i hx (hlen ▸ hx)) (hget' i (hlen ▸ hx) hz)

theorem exists_of_mem_right {xs : List α} {ys : List β} (h : List.Forall₂ R xs ys) {y : β}
    (hy : y ∈ ys) : ∃ x ∈ xs, R x y := by
  obtain ⟨hlen, hget⟩ := List.forall₂_iff_get.mp h
  obtain ⟨i, hi, rfl⟩ := List.getElem_of_mem hy
  exact ⟨_, List.getElem_mem _, hget i (hlen ▸ hi) hi⟩

theorem reflTransGen_of_mem {S : α → α → Prop} [Std.Symm S] {xs : List α} (h : xs.IsChain S)
    {a b : α} (ha : a ∈ xs) (hb : b ∈ xs) : ReflTransGen S a b := by
  have hchain : xs.IsChain (ReflTransGen S) := h.imp fun _ _ => ReflTransGen.single
  by_cases heq : a = b
  · exact heq ▸ .refl
  · exact hchain.pairwise.forall ha hb heq

end Positions

/-! ## Segments with ends in common -/

variable (decimals : Int) (segments : List (Segment Float))

/-- How many ends of segments have the key of an end. A key with a
coordinate that is not-a-number belongs to one end alone. -/
def touching (p : Point2 Float) : Nat :=
  if sameKey (keyOf decimals p) (keyOf decimals p) then
    degree (keyOf decimals p) (segments.map (Link.ofSegment decimals))
  else 1

/-- No key belongs to more than two ends. -/
def Simple : Prop :=
  ∀ s ∈ segments, touching decimals segments s.1 ≤ 2 ∧ touching decimals segments s.2 ≤ 2

/-- The segments at the positions have ends with the same key. -/
def Joined (i j : Nat) : Prop :=
  ∃ s t, segments[i]? = some s ∧ segments[j]? = some t ∧
    ∃ p q, (p = s.1 ∨ p = s.2) ∧ (q = t.1 ∨ q = t.2) ∧
      sameKey (keyOf decimals p) (keyOf decimals q) = true

/-- The polyline is drawn along the segments at the positions. -/
structure Draws (line : List (Point2 Float)) (part : List Nat) : Prop where
  /-- One edge along each segment. -/
  edges : List.Forall₂ (fun e i => ∃ s, segments[i]? = some s ∧ RunsAlong decimals e s)
    (edgesOf line) part
  nonempty : part ≠ []
  /-- A polyline that is not closed has an odd number of segment ends at each end. -/
  ends : Closed decimals line ∨ ∃ p q, line.head? = some p ∧ line.getLast? = some q ∧
    touching decimals segments p % 2 = 1 ∧ touching decimals segments q % 2 = 1
  /-- Exactly the cycles are closed. -/
  closed_iff : Simple decimals segments → (Closed decimals line ↔ ∀ i ∈ part, ∀ s,
    segments[i]? = some s → touching decimals segments s.1 = 2 ∧ touching decimals segments s.2 = 2)
  /-- Nothing can be added at the ends of the others. -/
  maximal : Simple decimals segments → ¬ Closed decimals line → ∃ p q, line.head? = some p ∧
    line.getLast? = some q ∧ touching decimals segments p = 1 ∧ touching decimals segments q = 1

/-- The polylines of the segments, each with the positions of its own ones. -/
structure Stitches (lines : List (List (Point2 Float))) (parts : List (List Nat)) : Prop where
  /-- Every segment is used exactly once. -/
  partition : parts.flatten.Perm (List.range segments.length)
  lines : List.Forall₂ (Draws decimals segments) lines parts
  /-- The parts are the connected components. -/
  components : Simple decimals segments → ∀ part ∈ parts, ∀ i ∈ part, ∀ j,
    j ∈ part ↔ ReflTransGen (Joined decimals segments) i j

variable {decimals : Int} {segments : List (Segment Float)}

instance symm_joined : Std.Symm (Joined decimals segments) where
  symm := fun _ _ ⟨s, t, hs, ht, p, q, hp, hq, hsame⟩ =>
    ⟨t, s, ht, hs, q, p, hq, hp, sameKey_symm hsame⟩

/-! ## Links of segments -/

theorem sound_of_mem_map {l : Link} (h : l ∈ segments.map (Link.ofSegment decimals)) :
    l.Sound decimals := by
  obtain ⟨s, -, rfl⟩ := List.mem_map.mp h
  exact Link.sound_ofSegment decimals s

theorem getElem?_links {l : Link} {i : Nat}
    (h : (segments.map (Link.ofSegment decimals))[i]? = some l) :
    ∃ s, segments[i]? = some s ∧ l = Link.ofSegment decimals s := by
  rw [List.getElem?_map] at h
  obtain ⟨s, hs, rfl⟩ := Option.map_eq_some_iff.mp h
  exact ⟨s, hs, rfl⟩

theorem touching_of_keyed {p : Point2 Float} (h : Keyed (keyOf decimals p)) :
    touching decimals segments p
      = degree (keyOf decimals p) (segments.map (Link.ofSegment decimals)) :=
  if_pos h

theorem touching_congr {p q : Point2 Float} (h : SameEnd decimals p q) :
    touching decimals segments p = touching decimals segments q := by
  rcases h with rfl | h
  · rfl
  · obtain ⟨hp, hq⟩ := keyed_of_sameKey h
    rw [touching_of_keyed hp, touching_of_keyed hq, degree_congr h]

theorem exists_touches_of_degree {k : Key} {links : List Link} (h : degree k links ≠ 0) :
    ∃ l ∈ links, l.touches k = true := by
  by_contra hnone
  push Not at hnone
  refine h (List.sum_eq_zero fun n hn => ?_)
  obtain ⟨l, hl, rfl⟩ := List.mem_map.mp hn
  exact ends_of_not_touches (Bool.eq_false_iff.mpr (hnone l hl))

theorem one_le_degree {k : Key} {l : Link} {links : List Link} (hl : l ∈ links)
    (htouch : l.touches k = true) : 1 ≤ degree k links :=
  (one_le_ends htouch).trans (List.single_le_sum (fun _ _ => Nat.zero_le _) _
    (List.mem_map_of_mem hl))

theorem Simple.degree_le (h : Simple decimals segments) (K : Key) :
    degree K (segments.map (Link.ofSegment decimals)) ≤ 2 := by
  by_cases hzero : degree K (segments.map (Link.ofSegment decimals)) = 0
  · omega
  obtain ⟨l, hl, htouch⟩ := exists_touches_of_degree hzero
  obtain ⟨s, hs, rfl⟩ := List.mem_map.mp hl
  obtain ⟨hfirst, hlast⟩ := h s hs
  rw [Link.touches, Bool.or_eq_true] at htouch
  rcases htouch with hsame | hsame
  · rw [touching_of_keyed (keyed_of_sameKey hsame).1] at hfirst
    exact degree_congr hsame _ ▸ hfirst
  · rw [touching_of_keyed (keyed_of_sameKey hsame).1] at hlast
    exact degree_congr hsame _ ▸ hlast

theorem Simple.touching_le (h : Simple decimals segments) (p : Point2 Float) :
    touching decimals segments p ≤ 2 := by
  rw [touching]
  split
  · exact h.degree_le _
  · exact one_le_two

/-- Ends with the same key are at the same place for the links. -/
theorem joined_of_touches {l m : Link} {i j : Nat} {k : Key}
    (hl : (segments.map (Link.ofSegment decimals))[i]? = some l)
    (hm : (segments.map (Link.ofSegment decimals))[j]? = some m)
    (hlk : l.touches k = true) (hmk : m.touches k = true) : Joined decimals segments i j := by
  obtain ⟨s, hs, rfl⟩ := getElem?_links hl
  obtain ⟨t, ht, rfl⟩ := getElem?_links hm
  have hend : ∀ u : Segment Float, (Link.ofSegment decimals u).touches k = true →
      ∃ p, (p = u.1 ∨ p = u.2) ∧ sameKey (keyOf decimals p) k = true := by
    intro u hu
    rw [Link.touches, Bool.or_eq_true] at hu
    exact hu.elim (fun h => ⟨_, Or.inl rfl, h⟩) fun h => ⟨_, Or.inr rfl, h⟩
  obtain ⟨p, hp, hpk⟩ := hend s hlk
  obtain ⟨q, hq, hqk⟩ := hend t hmk
  exact ⟨s, t, hs, ht, p, q, hp, hq, sameKey_trans hpk (sameKey_symm hqk)⟩

theorem touches_of_joined {i j : Nat} (h : Joined decimals segments i j) :
    ∃ l m k, (segments.map (Link.ofSegment decimals))[i]? = some l ∧
      (segments.map (Link.ofSegment decimals))[j]? = some m ∧
      l.touches k = true ∧ m.touches k = true := by
  obtain ⟨s, t, hs, ht, p, q, hp, hq, hsame⟩ := h
  have htouch : ∀ (u : Segment Float) (r : Point2 Float), (r = u.1 ∨ r = u.2) →
      sameKey (keyOf decimals r) (keyOf decimals q) = true →
      (Link.ofSegment decimals u).touches (keyOf decimals q) = true := by
    intro u r hr hrq
    rw [Link.touches, Bool.or_eq_true]
    rcases hr with rfl | rfl
    · exact Or.inl hrq
    · exact Or.inr hrq
  refine ⟨_, _, keyOf decimals q, ?_, ?_, htouch s p hp hsame,
    htouch t q hq (keyed_of_sameKey hsame).2⟩
  · rw [List.getElem?_map, hs, Option.map_some]
  · rw [List.getElem?_map, ht, Option.map_some]

/-! ## The polylines -/

/-- The links of a polyline and their positions. -/
abbrev Placed (decimals : Int) (segments : List (Segment Float)) :
    List Link → List Nat → Prop :=
  List.Forall₂ fun l i => (segments.map (Link.ofSegment decimals))[i]? = some l

theorem ends_of_mem_stitch {line : List (Point2 Float)} (h : line ∈ stitch segments decimals) :
    Closed decimals line ∨ ∃ p q, line.head? = some p ∧ line.getLast? = some q ∧
      touching decimals segments p % 2 = 1 ∧ touching decimals segments q % 2 = 1 := by
  let B : Key → Prop := fun k =>
    Keyed k → degree k (segments.map (Link.ofSegment decimals)) % 2 = 1
  have hB : ∀ a b, sameKey a b = true → B a → B b := fun a b hab ha _ =>
    degree_congr hab _ ▸ ha (keyed_of_sameKey hab).1
  have hkeyed : ∀ k, Keyed k ∨ B k := fun k => or_iff_not_imp_left.mpr fun hk hk' => absurd hk' hk
  have heven : EvenOutside B (segments.map (Link.ofSegment decimals)) := by
    intro K hK
    by_contra hodd
    exact hK fun _ => by omega
  have htouching : ∀ p, B (keyOf decimals p) → touching decimals segments p % 2 = 1 := by
    intro p hp
    rw [touching]
    split
    · exact hp ‹_›
    · rfl
  obtain ⟨p, q, hp, hq, hends⟩ := enclosed_of_keyed_outside hB (fun l => sound_of_mem_map)
    (fun l _ => ⟨hkeyed _, hkeyed _⟩) heven line h
  exact hends.imp (fun hsame => ⟨p, q, hp, hq, hsame⟩) fun ⟨hBp, hBq⟩ =>
    ⟨p, q, hp, hq, htouching p hBp, htouching q hBq⟩

/-- The first point of a polyline is an end of its first segment. -/
theorem exists_end_of_head {line : List (Point2 Float)} {part : List Nat} {p : Point2 Float}
    (hedges : List.Forall₂ (fun e i => ∃ s, segments[i]? = some s ∧ RunsAlong decimals e s)
      (edgesOf line) part) (hpart : part ≠ []) (hp : line.head? = some p) :
    ∃ i ∈ part, ∃ s, segments[i]? = some s ∧
      (SameEnd decimals p s.1 ∨ SameEnd decimals p s.2) := by
  match line with
  | [] | [_] =>
      cases hedges
      exact absurd rfl hpart
  | r :: r' :: rest =>
      obtain rfl := Option.some.inj hp
      obtain ⟨i, is, ⟨s, hs, hruns⟩, -, rfl⟩ := List.forall₂_cons_left_iff.mp hedges
      exact ⟨i, List.mem_cons_self, s, hs, hruns.imp And.left And.left⟩

theorem draws_of_threads {line : List (Point2 Float)} {group : List Link} {part : List Nat}
    (hline : line ∈ stitch segments decimals) (hthreads : Threads decimals line group)
    (hplaced : Placed decimals segments group part)
    (hle : ∀ K, degree K group ≤ degree K (segments.map (Link.ofSegment decimals))) :
    Draws decimals segments line part := by
  have hedges : List.Forall₂ (fun e i => ∃ s, segments[i]? = some s ∧ RunsAlong decimals e s)
      (edgesOf line) part := by
    refine forall₂_comp hthreads.edges hplaced fun _ _ hruns hl => ?_
    obtain ⟨s, hs, rfl⟩ := getElem?_links hl
    exact ⟨s, hs, hruns⟩
  have hnonempty : part ≠ [] := by
    rintro rfl
    cases hplaced
    exact hthreads.nonempty rfl
  have hends := ends_of_mem_stitch hline
  exact {
    edges := hedges
    nonempty := hnonempty
    ends := hends
    closed_iff := fun hsimple => by
      refine ⟨fun hclosed i hi s hs => ?_, fun htwice => ?_⟩
      · obtain ⟨l, hl, hli⟩ := exists_of_mem_right hplaced hi
        obtain ⟨s', hs', rfl⟩ := getElem?_links hli
        obtain rfl := Option.some.inj (hs.symm.trans hs')
        -- The links of the polyline alone make up both ends at each of its keys.
        have htwo : ∀ p, Keyed (keyOf decimals p) →
            (Link.ofSegment decimals s).touches (keyOf decimals p) = true →
            touching decimals segments p = 2 := by
          intro p hp htouch
          have hone := one_le_degree hl htouch
          have heven := hthreads.even hclosed (keyOf decimals p)
          have hall := hsimple.degree_le (keyOf decimals p)
          have hpart := hle (keyOf decimals p)
          rw [touching_of_keyed hp]
          omega
        obtain ⟨hfirst, hlast⟩ := hthreads.keyed hclosed _ hl
        exact ⟨htwo s.1 hfirst (touches_first hfirst), htwo s.2 hlast (touches_last hlast)⟩
      · by_contra hopen
        obtain ⟨p, q, hp, -, hodd, -⟩ := hends.resolve_left hopen
        obtain ⟨i, hi, s, hs, hend⟩ := exists_end_of_head hedges hnonempty hp
        obtain ⟨hfirst, hlast⟩ := htwice i hi s hs
        rcases hend with hend | hend
        · rw [touching_congr hend, hfirst] at hodd
          omega
        · rw [touching_congr hend, hlast] at hodd
          omega
    maximal := fun hsimple hopen => by
      obtain ⟨p, q, hp, hq, hoddp, hoddq⟩ := hends.resolve_left hopen
      have hlep := hsimple.touching_le p
      have hleq := hsimple.touching_le q
      exact ⟨p, q, hp, hq, by omega, by omega⟩ }

theorem chain_of_threads {line : List (Point2 Float)} {group : List Link} {part : List Nat}
    (hthreads : Threads decimals line group) (hplaced : Placed decimals segments group part) :
    part.IsChain (Joined decimals segments) :=
  isChain_of_forall₂ hplaced hthreads.linked fun hl hm ⟨_, hlk, hmk⟩ =>
    joined_of_touches hl hm hlk hmk

/-- Segments of links that do not meet are not joined. -/
theorem not_joined_of_apart {group group' : List Link} {part part' : List Nat}
    (hplaced : Placed decimals segments group part)
    (hplaced' : Placed decimals segments group' part') (hapart : Apart group group') :
    ∀ i ∈ part, ∀ j ∈ part', ¬ Joined decimals segments i j := by
  intro i hi j hj hjoined
  obtain ⟨l, m, k, hl, hm, hlk, hmk⟩ := touches_of_joined hjoined
  obtain ⟨l', hl', hli⟩ := exists_of_mem_right hplaced hi
  obtain ⟨m', hm', hmj⟩ := exists_of_mem_right hplaced' hj
  obtain rfl := Option.some.inj (hl.symm.trans hli)
  obtain rfl := Option.some.inj (hm.symm.trans hmj)
  have hone := one_le_degree hl' hlk
  have hone' := one_le_degree hm' hmk
  have hzero := hapart k
  omega

/-- The parts of a partition are the components, if the segments of each
follow each other and those of different ones are not joined. -/
theorem components_of_parts {parts : List (List Nat)}
    (hpartition : parts.flatten.Perm (List.range segments.length))
    (hchain : ∀ part ∈ parts, part.IsChain (Joined decimals segments))
    (hapart : parts.Pairwise fun part part' =>
      ∀ i ∈ part, ∀ j ∈ part', ¬ Joined decimals segments i j)
    {part : List Nat} (hpart : part ∈ parts) {i : Nat} (hi : i ∈ part) (j : Nat) :
    j ∈ part ↔ ReflTransGen (Joined decimals segments) i j := by
  refine ⟨fun hj => reflTransGen_of_mem (hchain part hpart) hi hj, fun hreach => ?_⟩
  induction hreach with
  | refl => exact hi
  | @tail j k _ hjk hj =>
      obtain ⟨-, t, -, ht, -⟩ := id hjk
      have hk : k ∈ parts.flatten :=
        hpartition.symm.subset (List.mem_range.mpr (List.getElem?_eq_some_iff.mp ht).1)
      obtain ⟨part', hpart', hk⟩ := List.mem_flatten.mp hk
      have hsymm : Std.Symm fun part part' : List Nat =>
          ∀ i ∈ part, ∀ j ∈ part', ¬ Joined decimals segments i j :=
        ⟨fun _ _ h i hi j hj hij => h j hj i hi (Std.Symm.symm _ _ hij)⟩
      by_contra hnot
      have hne : part ≠ part' := fun heq => hnot (heq ▸ hk)
      exact hapart.forall hpart hpart' hne j hj k hk hjk

/-- The polylines use every segment once, and where no key belongs to more
than two ends, they are the connected components. -/
theorem exists_stitches (decimals : Int) (segments : List (Segment Float)) :
    ∃ parts, Stitches decimals segments (stitch segments decimals) parts := by
  have hsound : ∀ l ∈ segments.map (Link.ofSegment decimals), l.Sound decimals :=
    fun l => sound_of_mem_map
  obtain ⟨groups, hthreads, hgroups, hapart⟩ := exists_groups hsound (Nat.le_refl _)
  rw [List.length_map] at hthreads
  obtain ⟨parts, hplaced, hpartition⟩ := exists_parts hgroups
  rw [List.length_map] at hpartition
  refine ⟨parts, hpartition, ?_, fun hsimple part hpart i hi j => ?_⟩
  · refine forall₂_comp hthreads hplaced fun hline hgroup hthread hplace => ?_
    exact draws_of_threads hline hthread hplace fun K =>
      degree_perm hgroups K ▸ degree_le_flatten hgroup K
  · refine components_of_parts hpartition (fun part hpart => ?_) ?_ hpart hi j
    · obtain ⟨group, hgroup, hplace⟩ := exists_of_mem_right hplaced hpart
      obtain ⟨line, -, hthread⟩ := exists_of_mem_right hthreads hgroup
      exact chain_of_threads hthread hplace
    · exact pairwise_of_forall₂ hplaced (hapart hsimple.degree_le) not_joined_of_apart

/-! ## Keys that can be found -/

/-- Every finite coordinate is rounded to a finite number. -/
def Fits (decimals : Int) (segments : List (Segment Float)) : Prop :=
  ∀ s ∈ segments, ∀ x ∈ [s.1.x, s.1.y, s.2.x, s.2.y],
    x.isFinite = true → (roundPlaces x decimals).isFinite = true

theorem all_rounds_iff :
    (segments.all fun s => rounds decimals s.1 && rounds decimals s.2) = true
      ↔ Fits decimals segments := by
  have hfits : ∀ x : Float, (!x.isFinite || (roundPlaces x decimals).isFinite) = true
      ↔ (x.isFinite = true → (roundPlaces x decimals).isFinite = true) := fun x => by
    cases x.isFinite <;> simp
  rw [List.all_eq_true]
  refine forall₂_congr fun s _ => ?_
  simp only [rounds, Bool.and_eq_true, hfits]
  simp [and_assoc]

theorem fits_of_nonneg (h : 0 ≤ decimals) (segments : List (Segment Float)) :
    Fits decimals segments :=
  fun _ _ _ _ hx => Binary64.isFinite_roundPlaces h hx

/-- Stitching gives the polylines of the segments exactly if every finite
coordinate is rounded to a finite number, as always when it is rounded to
places behind the point. -/
theorem stitches_iff_fits (decimals : Int) (segments : List (Segment Float)) :
    ((∃ lines parts, stitch? segments decimals = .ok lines ∧
      Stitches decimals segments lines parts) ↔ Fits decimals segments) ∧
    (0 ≤ decimals → Fits decimals segments) := by
  refine ⟨⟨?_, fun hfits => ?_⟩, fun h => fits_of_nonneg h segments⟩
  · rintro ⟨lines, -, hlines, -⟩
    rw [stitch?] at hlines
    split at hlines
    · exact all_rounds_iff.mp ‹_›
    · cases hlines
  · obtain ⟨parts, hparts⟩ := exists_stitches decimals segments
    exact ⟨_, parts, if_pos (all_rounds_iff.mpr hfits), hparts⟩

/-- Rounding to a large power of ten may fail. -/
theorem not_stitched_of_coarse : ¬ ∀ (decimals : Int) (segments : List (Segment Float)),
    ∃ lines parts, stitch? segments decimals = .ok lines ∧
      Stitches decimals segments lines parts := by
  intro hclaim
  obtain ⟨lines, -, hlines, -⟩ := hclaim (-308) [(⟨1.7e308, 0⟩, ⟨0, 1⟩)]
  rw [stitch?, if_neg (by decide +kernel)] at hlines
  cases hlines

end Contour
end FieldScript
