import Mathlib
import Bisection.Proofs.AreaChildren
import Bisection.Proofs.NodeDocument

namespace Bisection.PointSet

variable {s t : PointSet} {p : Point} {rows : List Point} {e : Error} {N axis : Nat}

section Pushing

/-- Why a point is refused as the one with a given index; the number of coordinates is looked at first. -/
inductive Rejects (N index : Nat) (p : Point) : Error → Prop
  | length (other : p.length ≠ N) : Rejects N index p (.dimensionMismatch index N p.length)
  | infinite (d : Nat) (same : p.length = N) (small : d < N) (before : ∀ i < d, (p.getD i 0).isFinite = true)
      (first : (p.getD d 0).isFinite = false) : Rejects N index p (.nonFiniteCoordinate index d)

theorem findIdx?_eq_some_iff {d : Nat} : p.findIdx? (fun v => !v.isFinite) = some d ↔
    d < p.length ∧ (∀ i < d, (p.getD i 0).isFinite = true) ∧ (p.getD d 0).isFinite = false := by
  rw [List.findIdx?_eq_some_iff_getElem]
  constructor
  · rintro ⟨hlt, hfirst, hbefore⟩
    refine ⟨hlt, fun i hi => ?_, ?_⟩
    · rw [List.getD_eq_getElem p 0 (hi.trans hlt)]
      simpa using hbefore i hi
    · rw [List.getD_eq_getElem p 0 hlt]
      simpa using hfirst
  · rintro ⟨hlt, hbefore, hfirst⟩
    refine ⟨hlt, ?_, fun i hi => ?_⟩
    · rw [List.getD_eq_getElem p 0 hlt] at hfirst
      simp [hfirst]
    · have hfinite := hbefore i hi
      rw [List.getD_eq_getElem p 0 (hi.trans hlt)] at hfinite
      simp [hfinite]

theorem Rejects.offer_eq (h : Rejects s.dimensions s.size p e) : s.offer p = (s, .error e) := by
  rw [offer]
  cases h with
  | length other => rw [if_pos other]
  | infinite d same small before first =>
      rw [if_neg (not_not.2 same), findIdx?_eq_some_iff.2 ⟨same ▸ small, before, first⟩]

theorem fits_or_rejects (s : PointSet) (p : Point) : Fits s.dimensions p ∨ ∃ e, Rejects s.dimensions s.size p e := by
  by_cases hlength : p.length = s.dimensions
  · cases hfirst : p.findIdx? (fun v => !v.isFinite) with
    | none =>
        rw [List.findIdx?_eq_none_iff] at hfirst
        exact Or.inl ⟨hlength, fun v hv => by simpa using hfirst v hv⟩
    | some d =>
        obtain ⟨hlt, hbefore, hat⟩ := findIdx?_eq_some_iff.1 hfirst
        exact Or.inr ⟨_, .infinite d hlength (hlength ▸ hlt) hbefore hat⟩
  · exact Or.inr ⟨_, .length hlength⟩

theorem offer_eq_error : s.offer p = (t, .error e) ↔ Rejects s.dimensions s.size p e ∧ t = s := by
  constructor
  · intro h
    rcases fits_or_rejects s p with hfits | ⟨e', hrejects⟩
    · cases (offer_of_fits hfits).symm.trans h
    · cases hrejects.offer_eq.symm.trans h
      exact ⟨hrejects, rfl⟩
  · rintro ⟨h, rfl⟩
    exact h.offer_eq

theorem push_eq_error : s.push p = .error e ↔ Rejects s.dimensions s.size p e := by
  have hoffer : s.push p = .error e ↔ ∃ t, s.offer p = (t, .error e) := by
    rw [push]
    rcases s.offer p with ⟨u, e' | ⟨⟩⟩ <;> simp
  simp [hoffer, offer_eq_error]

end Pushing

section Rows

theorem foldlM_push_eq_ok : rows.foldlM push s = .ok t ↔
    (∀ p ∈ rows, Fits s.dimensions p) ∧ t = { s with points := s.points ++ rows } := by
  induction rows generalizing s with
  | nil =>
      rw [List.foldlM_nil, List.append_nil]
      constructor
      · intro h
        cases h
        exact ⟨by simp, rfl⟩
      · rintro ⟨-, rfl⟩
        rfl
  | cons p rows ih =>
      rw [List.foldlM_cons, List.forall_mem_cons]
      refine bind_eq_ok.trans ?_
      simp only [push_eq_ok, ih]
      constructor
      · rintro ⟨u, ⟨hp, rfl⟩, hrows, rfl⟩
        exact ⟨⟨hp, hrows⟩, by simp⟩
      · rintro ⟨⟨hp, hrows⟩, rfl⟩
        exact ⟨_, ⟨hp, rfl⟩, hrows, by simp⟩

theorem ofRows_zero (rows : List Point) : ofRows 0 rows = .error .zeroDimensions := rfl

theorem ofRows_of_pos (h : 0 < N) : ofRows N rows = rows.foldlM push ⟨N, []⟩ := by
  have hempty : empty N = .ok ⟨N, []⟩ := if_neg h.ne'
  rw [ofRows, hempty]
  rfl

theorem ofRows_eq_ok : ofRows N rows = .ok t ↔ 0 < N ∧ (∀ p ∈ rows, Fits N p) ∧ t = ⟨N, rows⟩ := by
  rcases Nat.eq_zero_or_pos N with rfl | hpos
  · simp [ofRows_zero]
  · rw [ofRows_of_pos hpos, foldlM_push_eq_ok]
    simp [hpos]

theorem ofRows_eq_error : ofRows N rows = .error e ↔ (N = 0 ∧ e = .zeroDimensions) ∨
    0 < N ∧ ∃ before p after, rows = before ++ p :: after ∧ (∀ q ∈ before, Fits N q) ∧
      Rejects N before.length p e := by
  rcases Nat.eq_zero_or_pos N with rfl | hpos
  · simp [ofRows_zero, eq_comm]
  · rw [ofRows_of_pos hpos, foldlM_eq_error]
    simp only [hpos.ne', false_and, false_or, hpos, true_and, foldlM_push_eq_ok, push_eq_error]
    constructor
    · rintro ⟨before, p, after, t, hrows, ⟨hbefore, rfl⟩, hp⟩
      exact ⟨before, p, after, hrows, hbefore, hp⟩
    · rintro ⟨before, p, after, hrows, hbefore, hp⟩
      exact ⟨before, p, after, _, hrows, ⟨hbefore, rfl⟩, hp⟩

end Rows

section Sorting

/-- The points of one set in the order of a coordinate; those that agree in it keep their order. -/
structure SortedFrom (axis : Nat) (s t : PointSet) : Prop where
  dimensions : t.dimensions = s.dimensions
  perm : t.points.Perm s.points
  sorted : Sorted axis t.points
  stable : ∀ r : Int, (t.points.filter fun p => rank (p.getD axis 0) = r) =
    s.points.filter fun p => rank (p.getD axis 0) = r

theorem filter_mergeSort {α : Type} (f : α → Int) (l : List α) (r : Int) :
    ((l.mergeSort fun a b => f a ≤ f b).filter fun a => f a = r) = l.filter fun a => f a = r := by
  -- those with one key are in order already, so the sort does not touch their order
  have hties : (l.filter fun a => f a = r).Pairwise fun a b => decide (f a ≤ f b) = true := by
    refine List.pairwise_of_forall_mem_list fun a ha b hb => ?_
    simp only [List.mem_filter, decide_eq_true_eq] at ha hb ⊢
    omega
  have hsorted := List.sublist_mergeSort (decide_le_trans f) (decide_le_total f) hties List.filter_sublist
  have hsub := hsorted.filter fun a => decide (f a = r)
  rw [List.filter_filter] at hsub
  simp only [Bool.and_self] at hsub
  refine (hsub.eq_of_length ?_).symm
  exact ((List.mergeSort_perm l fun a b => decide (f a ≤ f b)).filter _).length_eq.symm

theorem sortedFrom_of_sortBy (h : s.sortBy axis = .ok t) : SortedFrom axis s t := by
  obtain ⟨hdim, hperm, hsorted⟩ := sortBy_spec h
  refine ⟨hdim, hperm, hsorted, fun r => ?_⟩
  unfold sortBy at h
  split at h
  · cases h
    rfl
  split at h
  · cases h
  · cases h
    exact filter_mergeSort (fun p : Point => rank (p.getD axis 0)) s.points r

theorem SortedFrom.valid (h : SortedFrom axis s t) (hv : s.Valid) : t.Valid :=
  ⟨h.dimensions ▸ hv.1, fun p hp => h.dimensions ▸ hv.2 p (h.perm.mem_iff.1 hp)⟩

end Sorting

section Halving

/-- Both halves of a set in its order; neither is empty, and a point in the middle goes to the upper one. -/
structure HalvedInto (s : PointSet) (h : Halves) : Prop where
  lower_dimensions : h.lower.dimensions = s.dimensions
  upper_dimensions : h.upper.dimensions = s.dimensions
  append : h.lower.points ++ h.upper.points = s.points
  lower_size : h.lower.size = s.size / 2
  lower_ne_nil : h.lower.points ≠ []
  upper_ne_nil : h.upper.points ≠ []

theorem halvedInto_of_medianSplit {h : Halves} (hm : s.medianSplit axis = .ok (some h)) : HalvedInto s h := by
  obtain ⟨hsize, hlower, hupper⟩ := medianSplit_eq_some hm
  obtain ⟨-, -, rfl⟩ := medianSplit_eq_halves.1 hm
  refine ⟨rfl, rfl, List.take_append_drop _ _, hlower, ?_, ?_⟩
  · refine List.ne_nil_of_length_pos ?_
    rw [size] at hlower
    omega
  · refine List.ne_nil_of_length_pos ?_
    rw [size] at hupper
    omega

theorem HalvedInto.valid {h : Halves} (hh : HalvedInto s h) (hv : s.Valid) : h.lower.Valid ∧ h.upper.Valid := by
  have hmem (p : Point) (hp : p ∈ h.lower.points ++ h.upper.points) := hv.2 p (hh.append ▸ hp)
  constructor
  · rw [← hh.lower_dimensions] at hmem
    exact ⟨hh.lower_dimensions ▸ hv.1, fun p hp => hmem p (List.mem_append_left _ hp)⟩
  · rw [← hh.upper_dimensions] at hmem
    exact ⟨hh.upper_dimensions ▸ hv.1, fun p hp => hmem p (List.mem_append_right _ hp)⟩

end Halving

section Runs

/-- The sets that a run of actions can lead to, for a given dimension at its beginning. -/
inductive Reached (N : Nat) : PointSet → Prop
  | empty {s : PointSet} (begun : PointSet.empty N = .ok s) : Reached N s
  | rows {s : PointSet} (rows : List Point) (begun : ofRows N rows = .ok s) : Reached N s
  | offer {s : PointSet} (before : Reached N s) (p : Point) : Reached N (s.offer p).1
  | sort {s t : PointSet} {axis : Nat} (before : Reached N s) (inside : axis < s.dimensions)
      (sorted : s.sortBy axis = .ok t) : Reached N t
  | lower {s : PointSet} {axis : Nat} {h : Halves} (before : Reached N s) (inside : axis < s.dimensions)
      (halved : s.medianSplit axis = .ok (some h)) : Reached N h.lower
  | upper {s : PointSet} {axis : Nat} {h : Halves} (before : Reached N s) (inside : axis < s.dimensions)
      (halved : s.medianSplit axis = .ok (some h)) : Reached N h.upper

theorem Valid.offer (hv : s.Valid) (p : Point) : (s.offer p).1.Valid ∧ (s.offer p).1.dimensions = s.dimensions := by
  rcases fits_or_rejects s p with hfits | ⟨e, hrejects⟩
  · rw [offer_of_fits hfits]
    exact ⟨hv.push (push_eq_ok.2 ⟨hfits, rfl⟩), rfl⟩
  · rw [hrejects.offer_eq]
    exact ⟨hv, rfl⟩

theorem Reached.valid (h : Reached N s) : s.Valid ∧ s.dimensions = N := by
  induction h with
  | empty begun =>
      refine ⟨valid_of_empty begun, ?_⟩
      rw [PointSet.empty] at begun
      split at begun
      · cases begun
      · cases begun
        rfl
  | rows rows begun =>
      obtain ⟨hpos, hrows, rfl⟩ := ofRows_eq_ok.1 begun
      exact ⟨⟨hpos, hrows⟩, rfl⟩
  | offer _ p ih => exact ⟨(ih.1.offer p).1, (ih.1.offer p).2.trans ih.2⟩
  | sort _ _ sorted ih =>
      have hs := sortedFrom_of_sortBy sorted
      exact ⟨hs.valid ih.1, hs.dimensions.trans ih.2⟩
  | lower _ _ halved ih =>
      have hh := halvedInto_of_medianSplit halved
      exact ⟨(hh.valid ih.1).1, hh.lower_dimensions.trans ih.2⟩
  | upper _ _ halved ih =>
      have hh := halvedInto_of_medianSplit halved
      exact ⟨(hh.valid ih.1).2, hh.upper_dimensions.trans ih.2⟩

/-- Whatever was done to a set, it has the dimension it began with, and all of its points have that many finite
coordinates. It takes exactly the points that fit and is left as it was by others, sorts without disturbing ties, and
falls into two halves as soon as it has two points. Rows are taken in their order, or the first that does not fit is
named. -/
theorem reached_stays_valid (h : Reached N s) :
    (0 < N ∧ s.dimensions = N ∧ ∀ p ∈ s.points, Fits N p) ∧
    (∀ p t, s.push p = .ok t ↔ Fits N p ∧ t = ⟨N, s.points ++ [p]⟩) ∧
    (∀ p e, s.push p = .error e ↔ Rejects N s.size p e) ∧
    (∀ p t, s.offer p = (t, .ok ()) ↔ Fits N p ∧ t = ⟨N, s.points ++ [p]⟩) ∧
    (∀ p t e, s.offer p = (t, .error e) ↔ Rejects N s.size p e ∧ t = s) ∧
    (∀ rows t, ofRows N rows = .ok t ↔ (∀ p ∈ rows, Fits N p) ∧ t = ⟨N, rows⟩) ∧
    (∀ rows e, ofRows N rows = .error e ↔ ∃ before p after, rows = before ++ p :: after ∧
      (∀ q ∈ before, Fits N q) ∧ Rejects N before.length p e) ∧
    (∀ axis < N, ∃ t, s.sortBy axis = .ok t ∧ SortedFrom axis s t) ∧
    ∀ axis < N, (s.medianSplit axis = .ok none ↔ s.size < 2) ∧
      (2 ≤ s.size → ∃ h, s.medianSplit axis = .ok (some h) ∧ HalvedInto s h) := by
  obtain ⟨hv, rfl⟩ := h.valid
  refine ⟨⟨hv.1, rfl, hv.2⟩, fun p t => push_eq_ok, fun p e => push_eq_error, fun p t => offer_eq_ok,
    fun p t e => offer_eq_error, ?_, ?_, ?_, ?_⟩
  · intro rows t
    rw [ofRows_eq_ok]
    simp [hv.1]
  · intro rows e
    rw [ofRows_eq_error]
    simp [hv.1, hv.1.ne']
  · intro axis haxis
    obtain ⟨t, ht⟩ := sortBy_ok haxis
    exact ⟨t, ht, sortedFrom_of_sortBy ht⟩
  · intro axis haxis
    refine ⟨medianSplit_eq_none, fun hsize => ?_⟩
    have hm := medianSplit_eq_halves.2 ⟨hsize, haxis, rfl⟩
    exact ⟨_, hm, halvedInto_of_medianSplit hm⟩

theorem reached_stays_valid_plane :
    ∃ s t h, ofRows 2 [[3, 1], [0, 2], [-0.0, 7]] = .ok s ∧
      s.offer [1, undefined] = (s, .error (.nonFiniteCoordinate 3 1)) ∧ s.sortBy 0 = .ok t ∧ SortedFrom 0 s t ∧
      t.medianSplit 1 = .ok (some h) ∧ HalvedInto t h ∧ Reached 2 h.lower ∧ ∀ p ∈ h.lower.points, Fits 2 p := by
  have hrows : ofRows 2 [[3, 1], [0, 2], [-0.0, 7]] = .ok ⟨2, [[3, 1], [0, 2], [-0.0, 7]]⟩ := rfl
  have hs : Reached 2 ⟨2, [[3, 1], [0, 2], [-0.0, 7]]⟩ := .rows _ hrows
  obtain ⟨-, -, -, -, hrefused, -, -, hsort, -⟩ := reached_stays_valid hs
  obtain ⟨t, hsorted, hst⟩ := hsort 0 (by decide)
  have ht : Reached 2 t := hs.sort (by decide) hsorted
  obtain ⟨⟨-, hdim, -⟩, -, -, -, -, -, -, -, hsplit⟩ := reached_stays_valid ht
  have hsize : 2 ≤ t.size := by
    rw [size_sortBy hsorted]
    decide
  obtain ⟨h, hhalved, hh⟩ := (hsplit 1 (by decide)).2 hsize
  have hrejects : Rejects 2 3 [1, undefined] (.nonFiniteCoordinate 3 1) :=
    .infinite 1 rfl (by decide) (by decide) rfl
  have hl : Reached 2 h.lower := ht.lower (by rw [hdim]; decide) hhalved
  exact ⟨_, t, h, hrows, (hrefused _ _ _).2 ⟨hrejects, rfl⟩, hsorted, hst, hhalved, hh, hl,
    (reached_stays_valid hl).1.2.2⟩

end Runs

end Bisection.PointSet
