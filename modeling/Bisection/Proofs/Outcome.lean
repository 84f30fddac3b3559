import Mathlib
import Bisection.Proofs.Shape

namespace Bisection

variable {config : Config} {rule : AxisRule} {D : Nat}

theorem bind_eq_error {ε α β : Type} {x : Except ε α} {f : α → Except ε β} {e : ε} :
    x.bind f = .error e ↔ x = .error e ∨ ∃ a, x = .ok a ∧ f a = .error e := by
  cases x <;> simp [Except.bind]

def Config.Sorts (c : Config) (depth count : Nat) : Prop := 2 ≤ count ∧ (depth = 0 ∨ c.minPoints < count)

def Config.Positive (c : Config) : Prop := c.fieldSize.isFinite = true ∧ 0 < c.fieldSize

instance (c : Config) : Decidable c.Positive :=
  inferInstanceAs (Decidable (c.fieldSize.isFinite = true ∧ 0 < c.fieldSize))

namespace Path

variable {depth n : Nat} {b : Path} {side : Side}

/-- A path from a region of `n` points at `depth` strays if the points at its end would be sorted along an axis that
does not exist, after the points of all regions on the way were sorted. -/
def Strays (config : Config) (rule : AxisRule) (D depth n : Nat) (b : Path) : Prop :=
  depth + b.length ≤ config.maxDepth ∧ D ≤ rule (depth + b.length) D ∧
    ∀ i ≤ b.length, config.Sorts (depth + i) (share n (b.take i))

theorem strays_nil : Strays config rule D depth n [] ↔
    depth ≤ config.maxDepth ∧ D ≤ rule depth D ∧ config.Sorts depth n := by
  simp [Strays, share]

theorem strays_cons : Strays config rule D depth n (side :: b) ↔
    config.Sorts depth n ∧ Strays config rule D (depth + 1) (side.share n) b := by
  have hlength : depth + (side :: b).length = depth + 1 + b.length := by
    rw [List.length_cons]
    omega
  rw [Strays, Strays, hlength]
  constructor
  · rintro ⟨hdepth, haxis, h⟩
    refine ⟨h 0 (Nat.zero_le _), hdepth, haxis, fun i hi => ?_⟩
    rw [Nat.add_assoc, Nat.add_comm 1]
    exact h (i + 1) (Nat.succ_le_succ hi)
  · rintro ⟨h, hdepth, haxis, ht⟩
    refine ⟨hdepth, haxis, fun i hi => ?_⟩
    cases i with
    | zero => exact h
    | succ i =>
        have hn := ht i (Nat.le_of_succ_le_succ hi)
        rwa [Nat.add_assoc, Nat.add_comm 1] at hn

end Path

namespace PointSet

variable {s t : PointSet} {axis : Nat} {e : Error}

theorem sortBy_eq_error : s.sortBy axis = .error e ↔
    2 ≤ s.size ∧ s.dimensions ≤ axis ∧ e = .axisOutOfRange axis s.dimensions := by
  unfold sortBy
  by_cases hsize : s.size < 2
  · simp [hsize]
  · by_cases haxis : s.dimensions ≤ axis <;> simp [hsize, haxis, Nat.not_lt.1 hsize, eq_comm]

theorem axis_lt_of_sortBy (h : s.sortBy axis = .ok t) (hsize : 2 ≤ t.size) : axis < t.dimensions := by
  rw [size_sortBy h] at hsize
  rw [(sortBy_spec h).1]
  by_contra hc
  cases h.symm.trans (sortBy_eq_error.2 ⟨hsize, Nat.not_lt.1 hc, rfl⟩)

theorem dimensions_halves {h : Halves} (e : s.medianSplit axis = .ok (some h)) :
    h.lower.dimensions = s.dimensions ∧ h.upper.dimensions = s.dimensions := by
  obtain ⟨-, -, rfl⟩ := medianSplit_eq_halves.1 e
  exact ⟨rfl, rfl⟩

def FirstOutside (s : PointSet) (b : Box) (i : Nat) : Prop :=
  ∃ p, s.points[i]? = some p ∧ b.contains p = false ∧ ∀ q ∈ s.points.take i, b.contains q = true

theorem FirstOutside.not_forall {b : Box} {i : Nat} (h : s.FirstOutside b i) :
    ¬∀ p ∈ s.points, b.contains p = true := by
  obtain ⟨p, hp, hout, -⟩ := h
  intro hall
  cases (hall p (List.mem_of_getElem? hp)).symm.trans hout

theorem firstOutside?_eq_some {b : Box} {i : Nat} : s.firstOutside? b = some i ↔ s.FirstOutside b i := by
  rw [firstOutside?, List.findIdx?_eq_some_iff_getElem]
  constructor
  · rintro ⟨hi, hout, hbefore⟩
    refine ⟨s.points[i], List.getElem?_eq_getElem hi, by simpa using hout, fun q hq => ?_⟩
    obtain ⟨j, hj, rfl⟩ := List.mem_take_iff_getElem.1 hq
    simpa using hbefore j (by omega)
  · rintro ⟨p, hp, hout, hbefore⟩
    obtain ⟨hi, rfl⟩ := List.getElem?_eq_some_iff.1 hp
    refine ⟨hi, by simpa using hout, fun j hj => ?_⟩
    simpa using hbefore _ (List.mem_take_iff_getElem.2 ⟨j, by omega, rfl⟩)

end PointSet

namespace Region

variable {r : Region} {s t : PointSet} {h : Halves} {lo up : Option PointSet} {given : List Point} {e : Error}

theorem aligned_of_sortBy (hs : s.sortBy (rule r.depth s.dimensions) = .ok t) (hr : r.points = some t) :
    r.Aligned rule s.dimensions := by
  intro u hu
  cases hr.symm.trans hu
  have hdim := (PointSet.sortBy_spec hs).1
  refine ⟨hdim, fun hsize => ?_⟩
  rw [← hdim] at hs ⊢
  exact PointSet.axis_lt_of_sortBy hs hsize

theorem keep_eq_error {axis : Nat} : keep config axis s = .error e ↔
    config.minPoints < s.size ∧ 2 ≤ s.size ∧ s.dimensions ≤ axis ∧ e = .axisOutOfRange axis s.dimensions := by
  rw [← PointSet.sortBy_eq_error, keep]
  by_cases hmany : config.minPoints < s.size
  · cases s.sortBy axis <;> simp [hmany, Except.map]
  · simp [hmany]

theorem Keeps.aligned {side : Side} {cut : Cut} {kept : Option PointSet}
    (hk : Keeps config (rule (r.depth + 1) D) s kept) (hs : s.dimensions = D) :
    (r.child side cut kept).Aligned rule D := by
  subst hs
  obtain ⟨-, rfl⟩ | ⟨-, t, ht, rfl⟩ := hk
  · intro u hu
    cases hu
  · refine aligned_of_sortBy ?_ rfl
    rwa [depth_child]

namespace Aligned

theorem strays_iff (hr : r.Aligned rule D) (ha : r.Assigned config given) :
    (∃ b, Path.Strays config rule D r.depth given.length b) ↔ config.Divides r.depth given.length ∧
      ∃ (side : Side) (b : Path), Path.Strays config rule D (r.depth + 1) (side.share given.length) b := by
  constructor
  · rintro ⟨_ | ⟨side, b⟩, h⟩
    · obtain ⟨-, haxis, htwo, hmany⟩ := Path.strays_nil.1 h
      cases ha with
      | kept s points perm =>
          have hsize : 2 ≤ s.size := htwo.trans_eq perm.length_eq.symm
          exact absurd ((hr s points).2 hsize) (Nat.not_lt.2 haxis)
      | dropped points inner few => omega
    · obtain ⟨hsorts, h⟩ := Path.strays_cons.1 h
      have hdepth := h.1
      exact ⟨⟨by omega, hsorts⟩, side, b, h⟩
  · rintro ⟨hdiv, side, b, h⟩
    exact ⟨side :: b, Path.strays_cons.2 ⟨hdiv.2, h⟩⟩

theorem exists_of_split (hr : r.Aligned rule D) (he : r.split config rule = .error e) :
    ∃ s h, r.points = some s ∧ s.dimensions = D ∧ s.medianSplit (rule r.depth s.dimensions) = .ok (some h) ∧
      (keep config (rule (r.depth + 1) D) h.lower = .error e ∨
        keep config (rule (r.depth + 1) D) h.upper = .error e) := by
  rcases hr.stops_or_axis_lt config with hstop | ⟨s, hs, rfl, hdepth, hsize, haxis⟩
  · cases he.symm.trans (split_eq_none.2 hstop)
  have hm := PointSet.medianSplit_eq_halves.2 ⟨hsize, haxis, rfl⟩
  refine ⟨s, _, hs, rfl, hm, ?_⟩
  rw [split_of_points hs hdepth hsize, hm] at he
  rcases bind_eq_error.1 he with hnone | ⟨_, hsome, he⟩
  · cases hnone
  cases hsome
  rcases bind_eq_error.1 he with hk | ⟨lo, -, he⟩
  · exact Or.inl hk
  rcases bind_eq_error.1 he with hk | ⟨up, -, he⟩
  · exact Or.inr hk
  · cases he

theorem strays_of_split (hr : r.Aligned rule D) (ha : r.Assigned config given) (he : r.split config rule = .error e) :
    (∃ b, Path.Strays config rule D r.depth given.length b) ∧ ∃ axis, e = .axisOutOfRange axis D := by
  have hdiv := ha.divides fun hnone => by cases he.symm.trans hnone
  obtain ⟨s, h, hs, rfl, hm, hk⟩ := hr.exists_of_split he
  have hsize : s.size = given.length := by
    have hkept := ha.size_eq
    rw [hs, if_pos hdiv.2.2] at hkept
    exact Option.some.inj hkept
  have stray (side : Side) {half : PointSet} (hdim : half.dimensions = s.dimensions)
      (hhalf : half.size = side.share given.length)
      (hk : keep config (rule (r.depth + 1) s.dimensions) half = .error e) :
      (∃ b, Path.Strays config rule s.dimensions r.depth given.length b) ∧
        ∃ axis, e = .axisOutOfRange axis s.dimensions := by
    obtain ⟨hmany, htwo, haxis, he⟩ := keep_eq_error.1 hk
    rw [hhalf] at hmany htwo
    rw [hdim] at haxis he
    exact ⟨(hr.strays_iff ha).2 ⟨hdiv, side, [], Path.strays_nil.2 ⟨hdiv.1, haxis, htwo, Or.inr hmany⟩⟩, _, he⟩
  obtain ⟨-, hlower, hupper⟩ := PointSet.medianSplit_eq_some hm
  obtain ⟨hdl, hdu⟩ := PointSet.dimensions_halves hm
  rw [hsize] at hlower hupper
  rcases hk with hk | hk
  · exact stray .lower hdl hlower hk
  · exact stray .upper hdu hupper hk

end Aligned

theorem Halved.aligned (hh : Halved config rule r s h lo up) (hr : r.Aligned rule D) (cut : Cut) :
    (r.child .lower cut lo).Aligned rule D ∧ (r.child .upper cut up).Aligned rule D := by
  obtain ⟨rfl, -⟩ := hr s hh.points
  obtain ⟨hdl, hdu⟩ := PointSet.dimensions_halves hh.halves
  exact ⟨hh.lower.aligned hdl, hh.upper.aligned hdu⟩

end Region

/-- A region whose points were sorted grows into a tree, unless a path from it strays. -/
theorem Tree.grow_outcome {r : Region} {given : List Point} (hr : r.Aligned rule D) (ha : r.Assigned config given) :
    (∃ b, Path.Strays config rule D r.depth given.length b) ∧
        (∃ axis, Tree.grow config rule r = .error (.axisOutOfRange axis D)) ∨
      (¬∃ b, Path.Strays config rule D r.depth given.length b) ∧ ∃ t, Tree.grow config rule r = .ok t := by
  fun_induction Tree.grow config rule r generalizing given with
  | case1 r e hsplit =>
      obtain ⟨hstray, axis, rfl⟩ := hr.strays_of_split ha hsplit
      exact Or.inl ⟨hstray, axis, rfl⟩
  | case2 r hsplit =>
      refine Or.inr ⟨fun hstray => ?_, _, rfl⟩
      exact ha.stops_iff.1 (Region.split_eq_none.1 hsplit) ((hr.strays_iff ha).1 hstray).1
  | case3 r cut lower upper hsplit hw ihl ihu =>
      obtain ⟨s, h, lo, up, hh, rfl, rfl, rfl⟩ := Region.split_eq_some.1 hsplit
      have hdiv := ha.divides fun hnone => by cases hsplit.symm.trans hnone
      obtain ⟨-, hlow, hup, hal, hau⟩ := hh.deals ha ⟨rule r.depth s.dimensions, h.coord⟩
      obtain ⟨hrl, hru⟩ := hh.aligned hr ⟨rule r.depth s.dimensions, h.coord⟩
      have hlower := ihl hrl hal
      have hupper := ihu hru hau
      rw [Region.depth_child, hlow] at hlower
      rw [Region.depth_child, hup] at hupper
      rw [hr.strays_iff ha]
      rcases hlower with ⟨⟨b, hb⟩, axis, e⟩ | ⟨hl, tl, el⟩
      · exact Or.inl ⟨⟨hdiv, .lower, b, hb⟩, axis, by rw [e]; rfl⟩
      rcases hupper with ⟨⟨b, hb⟩, axis, e⟩ | ⟨hu, tu, eu⟩
      · exact Or.inl ⟨⟨hdiv, .upper, b, hb⟩, axis, by rw [el, e]; rfl⟩
      · refine Or.inr ⟨?_, _, by rw [el, eu]; rfl⟩
        rintro ⟨-, side, b, hb⟩
        cases side with
        | lower => exact hl ⟨b, hb⟩
        | upper => exact hu ⟨b, hb⟩

namespace Partition

variable {points : PointSet}

theorem checkInput_of_not_positive (h : ¬config.Positive) :
    checkInput config points = .error (.invalidFieldSize config.fieldSize) := by
  have hvalid : config.validate = .error (.invalidFieldSize config.fieldSize) :=
    if_neg (by simpa [Config.Positive] using h)
  rw [checkInput, hvalid]
  rfl

theorem checkInput_of_positive (h : config.Positive) : checkInput config points =
    if addressable 8 points.dimensions then
      match points.firstOutside? (config.field points.dimensions) with
      | some i => .error (.pointOutsideField i config.fieldSize)
      | none => .ok ()
    else .error (.beyondMemory points.dimensions) := by
  have hvalid : config.validate = .ok () := if_pos (by simpa [Config.Positive] using h)
  rw [checkInput, hvalid, Config.field?, Box.cube?]
  by_cases hroom : addressable 8 points.dimensions = true
  · rw [if_pos hroom, if_pos hroom]
    rfl
  · rw [if_neg hroom, if_neg hroom]
    rfl

theorem buildWith_of_error {e : Error} (h : checkInput config points = .error e) :
    buildWith rule config points = .error e := by
  rw [buildWith, h]
  rfl

theorem outcome_of_accepted (hv : points.Valid) (hin : checkInput config points = .ok ()) :
    (∃ b, Path.Strays config rule points.dimensions 0 points.size b) ∧
        (∃ axis, buildWith rule config points = .error (.axisOutOfRange axis points.dimensions)) ∨
      (¬∃ b, Path.Strays config rule points.dimensions 0 points.size b) ∧
        ∃ P, buildWith rule config points = .ok P := by
  cases hs : points.sortBy (rule 0 points.dimensions) with
  | error e =>
      obtain ⟨htwo, haxis, rfl⟩ := PointSet.sortBy_eq_error.1 hs
      refine Or.inl ⟨⟨[], Path.strays_nil.2 ⟨Nat.zero_le _, haxis, htwo, Or.inl rfl⟩⟩, rule 0 points.dimensions, ?_⟩
      refine bind_eq_error.2 (Or.inr ⟨(), hin, ?_⟩)
      rw [rootRegion, hs]
      rfl
  | ok s =>
      have hroot : rootRegion config rule points = .ok ⟨[], config.field points.dimensions, some s⟩ := by
        rw [rootRegion, hs]
        rfl
      have hr := Region.aligned_of_sortBy (r := ⟨[], config.field points.dimensions, some s⟩) hs rfl
      have ha : Region.Assigned config ⟨[], config.field points.dimensions, some s⟩ points.points :=
        .kept s rfl (PointSet.sortBy_spec hs).2.1 (Or.inl rfl)
      rcases Tree.grow_outcome hr ha with ⟨hstray, axis, e⟩ | ⟨hno, tree, e⟩
      · refine Or.inl ⟨hstray, axis, ?_⟩
        refine bind_eq_error.2 (Or.inr ⟨(), hin, ?_⟩)
        refine bind_eq_error.2 (Or.inr ⟨_, hroot, ?_⟩)
        exact bind_eq_error.2 (Or.inl (grow_error e ..))
      · obtain ⟨P, hP, -⟩ := exists_holds_of_grown hv hin hroot (Tree.grow_eq_ok_iff.1 e)
        exact Or.inr ⟨hno, P, hP⟩

/-- What comes of a build: the first of four conditions that fails, or a partition. -/
inductive Outcome (rule : AxisRule) (config : Config) (points : PointSet) : Except Error Partition → Prop
  | refused (field : ¬config.Positive) : Outcome rule config points (.error (.invalidFieldSize config.fieldSize))
  | tooLarge (field : config.Positive) (room : addressable 8 points.dimensions = false) :
      Outcome rule config points (.error (.beyondMemory points.dimensions))
  | outside (field : config.Positive) (room : addressable 8 points.dimensions = true) {i : Nat}
      (first : points.FirstOutside (config.field points.dimensions) i) :
      Outcome rule config points (.error (.pointOutsideField i config.fieldSize))
  | strayed (field : config.Positive) (room : addressable 8 points.dimensions = true)
      (inside : ∀ p ∈ points.points, (config.field points.dimensions).contains p = true)
      (strays : ∃ b, Path.Strays config rule points.dimensions 0 points.size b) (axis : Nat) :
      Outcome rule config points (.error (.axisOutOfRange axis points.dimensions))
  | built (field : config.Positive) (room : addressable 8 points.dimensions = true)
      (inside : ∀ p ∈ points.points, (config.field points.dimensions).contains p = true)
      (stays : ¬∃ b, Path.Strays config rule points.dimensions 0 points.size b) (P : Partition) :
      Outcome rule config points (.ok P)

theorem outcome_buildWith (hv : points.Valid) : Outcome rule config points (buildWith rule config points) := by
  by_cases hfield : config.Positive
  · have hcheck : checkInput config points = _ := checkInput_of_positive hfield
    cases hroom : addressable 8 points.dimensions with
    | false =>
        rw [hroom, if_neg Bool.false_ne_true] at hcheck
        rw [buildWith_of_error hcheck]
        exact .tooLarge hfield hroom
    | true =>
        rw [hroom, if_pos rfl] at hcheck
        cases hfirst : points.firstOutside? (config.field points.dimensions) with
        | some i =>
            rw [hfirst] at hcheck
            rw [buildWith_of_error hcheck]
            exact .outside hfield hroom (PointSet.firstOutside?_eq_some.1 hfirst)
        | none =>
            rw [hfirst] at hcheck
            have hinside := (checkInput_spec hcheck).2.2.2
            rcases outcome_of_accepted hv hcheck with ⟨hstrays, axis, e⟩ | ⟨hstays, P, e⟩
            · rw [e]
              exact .strayed hfield hroom hinside hstrays axis
            · rw [e]
              exact .built hfield hroom hinside hstays P
  · rw [buildWith_of_error (checkInput_of_not_positive hfield)]
    exact .refused hfield

namespace Outcome

variable {x : Except Error Partition}

theorem invalid_iff (h : Outcome rule config points x) (f : Float) :
    x = .error (.invalidFieldSize f) ↔ f = config.fieldSize ∧ ¬config.Positive := by
  constructor
  · rintro rfl
    cases h with
    | refused field => exact ⟨rfl, field⟩
  · rintro ⟨rfl, hfield⟩
    cases h with
    | refused => rfl
    | tooLarge field | outside field | strayed field | built field => exact absurd field hfield

theorem beyondMemory_iff (h : Outcome rule config points x) (hfield : config.Positive) :
    x = .error (.beyondMemory points.dimensions) ↔ addressable 8 points.dimensions = false := by
  constructor
  · rintro rfl
    cases h with
    | tooLarge _ room => exact room
  · intro hroom
    cases h with
    | refused field => exact absurd hfield field
    | tooLarge => rfl
    | outside _ room | strayed _ room | built _ room => cases hroom.symm.trans room

theorem outside_iff (h : Outcome rule config points x) (hfield : config.Positive)
    (hroom : addressable 8 points.dimensions = true) (i : Nat) (f : Float) :
    x = .error (.pointOutsideField i f) ↔
      f = config.fieldSize ∧ points.FirstOutside (config.field points.dimensions) i := by
  constructor
  · rintro rfl
    cases h with
    | outside _ _ first => exact ⟨rfl, first⟩
  · rintro ⟨rfl, hfirst⟩
    cases h with
    | refused field => exact absurd hfield field
    | tooLarge _ room => cases hroom.symm.trans room
    | outside _ _ first =>
        rw [← PointSet.firstOutside?_eq_some] at first hfirst
        cases first.symm.trans hfirst
        rfl
    | strayed _ _ inside | built _ _ inside => exact absurd inside hfirst.not_forall

theorem crash_iff (h : Outcome rule config points x) (hfield : config.Positive)
    (hroom : addressable 8 points.dimensions = true)
    (hinside : ∀ p ∈ points.points, (config.field points.dimensions).contains p = true) :
    ((∃ e, x = .error e ∧ e.isCrash = true) ↔ ∃ b, Path.Strays config rule points.dimensions 0 points.size b) ∧
      ((∃ P, x = .ok P) ↔ ¬∃ b, Path.Strays config rule points.dimensions 0 points.size b) := by
  cases h with
  | refused field => exact absurd hfield field
  | tooLarge _ room => cases hroom.symm.trans room
  | outside _ _ first => exact absurd hinside first.not_forall
  | strayed _ _ _ strays axis =>
      refine ⟨⟨fun _ => strays, fun _ => ⟨_, rfl, rfl⟩⟩, ?_, fun stays => absurd strays stays⟩
      rintro ⟨P, hP⟩
      cases hP
  | built _ _ _ stays P =>
      refine ⟨⟨?_, fun strays => absurd strays stays⟩, fun _ => stays, fun _ => ⟨P, rfl⟩⟩
      rintro ⟨e, he, -⟩
      cases he

theorem not_crash {e : Error} (h : Outcome rule config points x) (hroom : addressable 8 points.dimensions = true)
    (hstays : ¬∃ b, Path.Strays config rule points.dimensions 0 points.size b) (he : x = .error e) :
    e.isCrash = false := by
  subst he
  cases h with
  | refused | outside => rfl
  | tooLarge _ room => cases hroom.symm.trans room
  | strayed _ _ _ strays => exact absurd strays hstays

end Outcome

theorem not_strays_roundRobin (hv : points.Valid) :
    ¬∃ b, Path.Strays config roundRobin points.dimensions 0 points.size b := by
  rintro ⟨b, -, haxis, -⟩
  exact absurd (roundRobin_lt hv.1 _) (Nat.not_lt.2 haxis)

/-- What comes of a build. A field that is not positive and finite is refused first; then the bounds of the field must
fit into memory; then all points must lie in it; then the partition is built, unless some path strays. The axes in turn
never stray. -/
theorem outcome_of_build (hv : points.Valid) :
    (∀ f, buildWith rule config points = .error (.invalidFieldSize f) ↔ f = config.fieldSize ∧ ¬config.Positive) ∧
    (config.Positive →
      (buildWith rule config points = .error (.beyondMemory points.dimensions) ↔
        addressable 8 points.dimensions = false) ∧
      (addressable 8 points.dimensions = true →
        (∀ i f, buildWith rule config points = .error (.pointOutsideField i f) ↔
          f = config.fieldSize ∧ points.FirstOutside (config.field points.dimensions) i) ∧
        ((∀ p ∈ points.points, (config.field points.dimensions).contains p = true) →
          ((∃ e, buildWith rule config points = .error e ∧ e.isCrash = true) ↔
            ∃ b, Path.Strays config rule points.dimensions 0 points.size b) ∧
          ((∃ P, buildWith rule config points = .ok P) ↔
            ¬∃ b, Path.Strays config rule points.dimensions 0 points.size b)) ∧
        ∀ e, build config points = .error e → e.isCrash = false)) := by
  have h : Outcome rule config points _ := outcome_buildWith hv
  refine ⟨h.invalid_iff, fun hfield => ⟨h.beyondMemory_iff hfield, fun hroom => ⟨h.outside_iff hfield hroom,
    h.crash_iff hfield hroom, fun e he => ?_⟩⟩⟩
  have h' : Outcome roundRobin config points _ := outcome_buildWith hv
  exact h'.not_crash hroom (not_strays_roundRobin hv) he

theorem outcome_of_build_line :
    (∃ e, buildWith (fun depth _ => depth) {} ⟨1, [[1], [2], [3], [4]]⟩ = .error e ∧ e.isCrash = true) ∧
      ∃ P, buildWith (fun depth _ => depth) { minPoints := 2 } ⟨1, [[1], [2], [3], [4]]⟩ = .ok P := by
  constructor
  · refine ((((outcome_of_build (by decide)).2 (by decide)).2 rfl).2.1 (by decide)).1.2 ⟨[.lower], ?_⟩
    apply Path.strays_cons.2
    refine ⟨⟨by decide, Or.inl rfl⟩, ?_⟩
    apply Path.strays_nil.2
    exact ⟨by decide, by decide, by decide, Or.inr (by decide)⟩
  · refine ((((outcome_of_build (by decide)).2 (by decide)).2 rfl).2.1 (by decide)).2.2 ?_
    rintro ⟨_ | ⟨side, b⟩, hb⟩
    · exact absurd (Path.strays_nil.1 hb).2.1 (by decide)
    · obtain ⟨-, hmany⟩ := (Path.strays_cons.1 hb).2.2.2 0 (Nat.zero_le _)
      rw [List.take_zero] at hmany
      cases side <;> exact absurd hmany (by decide)

/-- No points at all, in so many dimensions that the bounds of the field cannot be kept. -/
theorem build_beyond_memory :
    PointSet.Valid ⟨2 ^ 60, []⟩ ∧ Config.Positive {} ∧
      (∀ p ∈ ([] : List Point), (Config.field {} (2 ^ 60)).contains p = true) ∧
      (¬∃ b, Path.Strays {} roundRobin (2 ^ 60) 0 0 b) ∧
      ∃ e, build {} ⟨2 ^ 60, []⟩ = .error e ∧ e.isCrash = true := by
  have hv : PointSet.Valid ⟨2 ^ 60, []⟩ := by decide
  refine ⟨hv, by decide, by simp, not_strays_roundRobin hv, .beyondMemory (2 ^ 60), rfl, rfl⟩

end Partition

end Bisection
