import Mathlib
import Bisection.View.Viewer
import Bisection.Proofs.Single

namespace Bisection.View

open Floating Single

theorem clamp?_spec {x lo hi : Float32} (hx : x.isNaN = false) (h : lo ≤ hi) :
    ∃ y, clamp? x lo hi = some y ∧ lo ≤ y ∧ y ≤ hi ∧ (∀ t, lo ≤ t → t < hi → (t < y ↔ t < x)) ∧
      ∀ t, lo < t → t ≤ hi → (y < t ↔ x < t) := by
  rw [clamp?, if_pos h]
  refine ⟨_, rfl, ?_⟩
  by_cases hlow : x < lo
  · rw [if_pos hlow]
    refine ⟨le_refl (le_iff.1 h).1, h, ?_, ?_⟩
    · intro t ht _
      exact iff_of_false (not_lt_of_le ht) (not_lt_of_le (le_trans (le_of_lt hlow) ht))
    · intro t ht _
      exact iff_of_true ht (lt_of_lt_of_le hlow (le_of_lt ht))
  rw [if_neg hlow]
  by_cases hhigh : hi < x
  · rw [if_pos hhigh]
    refine ⟨h, le_refl (le_iff.1 h).2.1, ?_, ?_⟩
    · intro t _ ht
      exact iff_of_true ht (lt_of_lt_of_le ht (le_of_lt hhigh))
    · intro t _ ht
      exact iff_of_false (not_lt_of_le ht) (not_lt_of_le (le_trans ht (le_of_lt hhigh)))
  · rw [if_neg hhigh]
    exact ⟨le_of_not_lt hx (le_iff.1 h).1 hlow, le_of_not_lt (le_iff.1 h).2.1 hx hhigh, fun _ _ _ => Iff.rfl,
      fun _ _ _ => Iff.rfl⟩

/-- Tilted no further than a limit, to either side. -/
def Level (limit pitch : Float32) : Prop := -limit ≤ pitch ∧ pitch ≤ limit

variable {q : Float32}

theorem Level.isFinite (h : Level 1.5 q) : q.isFinite = true := isFinite_of_between rfl rfl h.1 h.2

theorem Level.up (h : Level 1.5 q) : -1.5 + 0.02 ≤ q + 0.02 ∧ q + 0.02 ≤ 1.5 + 0.02 :=
  ⟨add_le_add_right rfl h.isFinite rfl h.1, add_le_add_right h.isFinite rfl rfl h.2⟩

theorem Level.down (h : Level 1.5 q) : -1.5 - 0.02 ≤ q - 0.02 ∧ q - 0.02 ≤ 1.5 - 0.02 :=
  ⟨sub_le_sub_right rfl h.isFinite rfl h.1, sub_le_sub_right h.isFinite rfl rfl h.2⟩

theorem next_le_of_lt (h : 1.48 < q) (h' : q ≤ 1.5) : 1.4800001 ≤ q := by
  have hlow : Single.value 1.48 = (12415140 : ℕ) * 2 ^ (-23 : ℤ) := rfl
  have hnext : Single.value 1.4800001 = (12415140 + 1 : ℕ) * 2 ^ (-23 : ℤ) := rfl
  have htwo : q < 2 := lt_of_le_of_lt h' (by decide +kernel)
  exact next_le hlow (by decide +kernel) hnext (by decide +kernel) h htwo

theorem le_next_of_lt (h : q < -1.48) (h' : -1.5 ≤ q) : q ≤ -1.4800001 :=
  le_neg_comm.1 (next_le_of_lt (lt_neg_comm.1 h) (neg_le_comm.1 h'))

theorem level_add_iff (h : Level 1.5 q) : Level 1.5 (q + 0.02) ↔ ¬1.48 < q := by
  constructor
  -- The least single past `1.48` is led past the limit already, and sums keep the order.
  · intro hl hq
    have hnext : 1.4800001 + 0.02 ≤ q + 0.02 := add_le_add_right rfl h.isFinite rfl (next_le_of_lt hq h.2)
    have hover : (1.5 : Float32) < 1.4800001 + 0.02 := by decide +kernel
    exact not_lt_of_le hl.2 (lt_of_lt_of_le hover hnext)
  · intro hq
    have hle : q ≤ 1.48 := le_of_not_lt rfl (isNaN_of_isFinite h.isFinite) hq
    have hhigh : q + 0.02 ≤ 1.48 + 0.02 := add_le_add_right h.isFinite rfl rfl hle
    exact ⟨le_trans (by decide +kernel) h.up.1, le_trans hhigh (by decide +kernel)⟩

theorem level_sub_iff (h : Level 1.5 q) : Level 1.5 (q - 0.02) ↔ ¬q < -1.48 := by
  constructor
  · intro hl hq
    have hnext : q - 0.02 ≤ -1.4800001 - 0.02 := sub_le_sub_right h.isFinite rfl rfl (le_next_of_lt hq h.1)
    have hunder : (-1.4800001 : Float32) - 0.02 < -1.5 := by decide +kernel
    exact not_lt_of_le hl.1 (lt_of_le_of_lt hnext hunder)
  · intro hq
    have hle : -1.48 ≤ q := le_of_not_lt (isNaN_of_isFinite h.isFinite) rfl hq
    have hlow : -1.48 - 0.02 ≤ q - 0.02 := sub_le_sub_right rfl h.isFinite rfl hle
    exact ⟨le_trans (by decide +kernel) hlow, le_trans h.down.2 (by decide +kernel)⟩

/-- Both steps together lead from the limit back to the limit, so they stay within it from everywhere. -/
theorem level_add_sub (h : Level 1.5 q) : Level 1.5 (q + 0.02 - 0.02) := by
  have hfin : (q + 0.02).isFinite = true := isFinite_of_between rfl rfl h.up.1 h.up.2
  have hlow : -1.5 + 0.02 - 0.02 ≤ q + 0.02 - 0.02 := sub_le_sub_right rfl hfin rfl h.up.1
  have hhigh : q + 0.02 - 0.02 ≤ 1.5 + 0.02 - 0.02 := sub_le_sub_right hfin rfl rfl h.up.2
  exact ⟨le_trans (by decide +kernel) hlow, le_trans hhigh (by decide +kernel)⟩

def tilt (input : Input) (q : Float32) : Float32 :=
  let q := if input.held.contains .up then q + 0.02 else q
  if input.held.contains .down then q - 0.02 else q

/-- One of the keys for the pitch is held without the other, less than its step before the limit. -/
def Overtilts (input : Input) (q : Float32) : Prop :=
  (.up ∈ input.held ∧ .down ∉ input.held ∧ 1.48 < q) ∨ (.down ∈ input.held ∧ .up ∉ input.held ∧ q < -1.48)

theorem level_tilt_iff (input : Input) (h : Level 1.5 q) : Level 1.5 (tilt input q) ↔ ¬Overtilts input q := by
  by_cases hup : .up ∈ input.held
  · by_cases hdown : .down ∈ input.held
    · simpa [tilt, Overtilts, hup, hdown] using level_add_sub h
    · simpa [tilt, Overtilts, hup, hdown] using level_add_iff h
  · by_cases hdown : .down ∈ input.held
    · simpa [tilt, Overtilts, hup, hdown] using level_sub_iff h
    · simpa [tilt, Overtilts, hup, hdown] using h

theorem level_tilt (input : Input) (h : Level 1.5 q) : Level 1.52 (tilt input q) := by
  have hwider {p : Float32} (hp : Level 1.5 p) : Level 1.52 p :=
    ⟨le_trans (by decide +kernel) hp.1, le_trans hp.2 (by decide +kernel)⟩
  have hup : Level 1.52 (q + 0.02) := ⟨le_trans (by decide +kernel) h.up.1, le_trans h.up.2 (by decide +kernel)⟩
  have hdown : Level 1.52 (q - 0.02) :=
    ⟨le_trans (by decide +kernel) h.down.1, le_trans h.down.2 (by decide +kernel)⟩
  simp only [tilt]
  split_ifs
  · exact hwider (level_add_sub h)
  · exact hdown
  · exact hup
  · exact hwider h

namespace Camera

/-- The numbers that the limits rest on are in range, and the limits of the distance are in order. -/
structure Steady (c : Camera) : Prop where
  distance : c.distance.isFinite = true
  pitch : c.pitch.isFinite = true
  zoomSpeed : c.zoomSpeed.isFinite = true
  minDistance : c.minDistance.isFinite = true
  maxDistance : c.maxDistance.isFinite = true
  ordered : c.minDistance ≤ c.maxDistance

def aim (c : Camera) (input : Input) : Float32 :=
  if input.dragging then c.pitch - input.delta.y * 2 else c.pitch

def turn (c : Camera) (input : Input) : Float32 :=
  let yaw := if input.dragging then c.yaw - input.delta.x * 2 else c.yaw
  let yaw := if input.held.contains .left then yaw + 0.02 else yaw
  if input.held.contains .right then yaw - 0.02 else yaw

theorem update?_eq (c : Camera) (input : Input) : c.update? input =
    (clamp? (c.aim input) (-1.5) 1.5).bind fun q =>
      (clamp? (c.distance - input.wheel.y * c.zoomSpeed) c.minDistance c.maxDistance).bind fun r =>
        some { c with distance := r, yaw := c.turn input, pitch := tilt input q } := rfl

end Camera

structure Input.Measured (input : Input) : Prop where
  delta : input.delta.y.isFinite = true
  wheel : input.wheel.y.isFinite = true

namespace Camera

variable {c : Camera} {input : Input}

theorem isNaN_aim (hc : c.Steady) (hi : input.Measured) : (c.aim input).isNaN = false := by
  rw [aim]
  split_ifs
  · exact isNaN_sub hc.pitch (value_mul hi.delta rfl).1
  · exact isNaN_of_isFinite hc.pitch

theorem exists_pitch (hc : c.Steady) (hi : input.Measured) : ∃ q, clamp? (c.aim input) (-1.5) 1.5 = some q ∧
    Level 1.5 q ∧ (Overtilts input q ↔ Overtilts input (c.aim input)) := by
  have hlimits : (-1.5 : Float32) ≤ 1.5 := by decide +kernel
  obtain ⟨q, hq, hlow, hhigh, habove, hbelow⟩ := clamp?_spec (isNaN_aim hc hi) hlimits
  refine ⟨q, hq, ⟨hlow, hhigh⟩, ?_⟩
  rw [Overtilts, Overtilts, habove 1.48 (by decide +kernel) (by decide +kernel),
    hbelow (-1.48) (by decide +kernel) (by decide +kernel)]

theorem exists_distance (hc : c.Steady) (hi : input.Measured) :
    ∃ r, clamp? (c.distance - input.wheel.y * c.zoomSpeed) c.minDistance c.maxDistance = some r ∧
      c.minDistance ≤ r ∧ r ≤ c.maxDistance := by
  have hn := isNaN_sub hc.distance (value_mul hi.wheel hc.zoomSpeed).1
  obtain ⟨r, hr, hlow, hhigh, -⟩ := clamp?_spec hn hc.ordered
  exact ⟨r, hr, hlow, hhigh⟩

theorem exists_update (hc : c.Steady) (hi : input.Measured) : ∃ r q,
    c.update? input = some { c with distance := r, yaw := c.turn input, pitch := tilt input q } ∧
      c.minDistance ≤ r ∧ r ≤ c.maxDistance ∧ Level 1.5 q ∧ (Overtilts input q ↔ Overtilts input (c.aim input)) := by
  obtain ⟨q, hq, hlevel, hover⟩ := exists_pitch hc hi
  obtain ⟨r, hr, hlow, hhigh⟩ := exists_distance hc hi
  refine ⟨r, q, ?_, hlow, hhigh, hlevel, hover⟩
  rw [update?_eq, hq, Option.bind_some, hr, Option.bind_some]

/-- What updates keep: the camera steady, its target, and the limits of its distance. -/
structure Kept (c c' : Camera) : Prop where
  steady : c'.Steady
  target : c'.target = c.target
  minDistance : c'.minDistance = c.minDistance
  maxDistance : c'.maxDistance = c.maxDistance

theorem exists_kept (hc : c.Steady) (hi : input.Measured) : ∃ c', c.update? input = some c' ∧ c.Kept c' := by
  obtain ⟨r, q, hupdate, hlow, hhigh, hlevel, -⟩ := exists_update hc hi
  have hr : r.isFinite = true := isFinite_of_between hc.minDistance hc.maxDistance hlow hhigh
  have hq : (tilt input q).isFinite = true :=
    isFinite_of_between rfl rfl (level_tilt input hlevel).1 (level_tilt input hlevel).2
  exact ⟨_, hupdate, ⟨hr, hq, hc.zoomSpeed, hc.minDistance, hc.maxDistance, hc.ordered⟩, rfl, rfl, rfl⟩

theorem exists_run {inputs : List Input} (hc : c.Steady) (hi : ∀ input ∈ inputs, input.Measured) :
    ∃ c', inputs.foldlM update? c = some c' ∧ c.Kept c' := by
  induction inputs generalizing c with
  | nil => exact ⟨c, rfl, hc, rfl, rfl, rfl⟩
  | cons input rest ih =>
      obtain ⟨d, hd, hkept⟩ := exists_kept hc (hi input List.mem_cons_self)
      obtain ⟨c', hrun, hkept'⟩ := ih hkept.steady fun i hmem => hi i (List.mem_cons_of_mem input hmem)
      refine ⟨c', ?_, hkept'.steady, hkept'.target.trans hkept.target, hkept'.minDistance.trans hkept.minDistance,
        hkept'.maxDistance.trans hkept.maxDistance⟩
      rw [List.foldlM_cons, hd]
      exact hrun

end Camera

theorem exists_of_mem_mapM {α β : Type} {f : α → Option β} {l : List α} {r : List β} (h : l.mapM f = some r) :
    ∀ y ∈ r, ∃ x ∈ l, f x = some y := by
  induction l generalizing r with
  | nil =>
      cases h
      exact nofun
  | cons a l ih =>
      rw [List.mapM_cons] at h
      simp only [Option.bind_eq_bind, Option.bind_eq_some_iff, Option.pure_def, Option.some.injEq] at h
      obtain ⟨b, hb, rest, hrest, rfl⟩ := h
      intro y hy
      rcases List.mem_cons.1 hy with rfl | hy
      · exact ⟨a, List.mem_cons_self, hb⟩
      · obtain ⟨x, hx, hxy⟩ := ih hrest y hy
        exact ⟨x, List.mem_cons_of_mem a hx, hxy⟩

variable {p : Partition} {nav : Navigator} {draws : List Draw} {position target up : Vec3}

theorem camera_not_mem_leaf {n : Node} {highlighted : Bool} (h : drawLeafSpace? n highlighted = some draws) :
    .camera position target up ∉ draws := by
  rw [drawLeafSpace?] at h
  simp only [Option.bind_eq_bind, Option.bind_eq_some_iff, Option.pure_def, Option.some.injEq] at h
  obtain ⟨block, -, rfl⟩ := h
  simp

theorem camera_not_mem_areas (h : nav.drawSpace? p = some draws) : .camera position target up ∉ draws := by
  -- With or without the whole field in front, the rest is one list of leaves.
  have hbelow (whole : List Draw) (hwhole : .camera position target up ∉ whole)
      (h : (((nav.leaves p).mapM fun n => drawLeafSpace? n true).bind fun below => some (whole ++ below.flatten)) =
        some draws) : .camera position target up ∉ draws := by
    obtain ⟨below, hbelow, hdraws⟩ := Option.bind_eq_some_iff.1 h
    cases hdraws
    rw [List.mem_append, List.mem_flatten]
    rintro (hmem | ⟨leaf, hleaf, hmem⟩)
    · exact hwhole hmem
    · obtain ⟨n, -, hn⟩ := exists_of_mem_mapM hbelow leaf hleaf
      exact camera_not_mem_leaf hn hmem
  rw [Navigator.drawSpace?] at h
  split_ifs at h
  · exact hbelow [] List.not_mem_nil h
  · obtain ⟨whole, hwhole, hrest⟩ := Option.bind_eq_some_iff.1 h
    exact hbelow whole (camera_not_mem_leaf hwhole) hrest

theorem camera_not_mem_points {size : Float32} (h : drawPointsSpace? p size = some draws) :
    .camera position target up ∉ draws := by
  intro hmem
  obtain ⟨q, -, hq⟩ := exists_of_mem_mapM h _ hmem
  simp [Option.bind_eq_bind, Option.bind_eq_some_iff] at hq

theorem camera_not_mem_panel (input : Input) : .camera position target up ∉ drawPanel p nav input := by
  simp [drawPanel, Navigator.caption]

def Displays (c : Camera) (draws : List Draw) : Prop :=
  ∀ position target up, .camera position target up ∈ draws ↔
    position = c.position ∧ target = c.target ∧ up = Camera.up

theorem frame?_spec {c c' : Camera} {nav' : Navigator} {input : Input}
    (h : frame? p nav c input = some (nav', c', draws)) : c.update? input = some c' ∧ Displays c' draws := by
  rw [frame?] at h
  simp only [Option.bind_eq_bind, Option.bind_eq_some_iff, Option.pure_def, Option.some.injEq, Prod.mk.injEq] at h
  obtain ⟨d, hd, areas, hareas, points, hpoints, rfl, rfl, rfl⟩ := h
  refine ⟨hd, ?_⟩
  intro position target up
  simp [Camera.draw, camera_not_mem_areas hareas, camera_not_mem_points hpoints, camera_not_mem_panel]

theorem frames?_cons {c : Camera} {input : Input} {rest : List Input} {frames : List (List Draw)}
    (h : frames? p nav c (input :: rest) = some frames) : ∃ nav' c' draws shown, c.update? input = some c' ∧
      Displays c' draws ∧ frames? p nav' c' rest = some shown ∧ frames = draws :: shown := by
  rw [frames?] at h
  obtain ⟨⟨nav', c', draws⟩, hframe, hrest⟩ := Option.bind_eq_some_iff.1 h
  obtain ⟨shown, hshown, hframes⟩ := Option.bind_eq_some_iff.1 hrest
  cases hframes
  obtain ⟨hupdate, hshows⟩ := frame?_spec hframe
  exact ⟨nav', c', draws, shown, hupdate, hshows, hshown, rfl⟩

theorem frames?_spec {c c₀ c₁ : Camera} {before after : List Input} {input : Input} {frames : List (List Draw)}
    (hrun : before.foldlM Camera.update? c = some c₀) (hupdate : c₀.update? input = some c₁)
    (h : frames? p nav c (before ++ input :: after) = some frames) :
    ∃ draws, frames[before.length]? = some draws ∧ Displays c₁ draws := by
  induction before generalizing nav c frames with
  | nil =>
      cases hrun
      obtain ⟨nav', c', draws, shown, hc', hshows, -, rfl⟩ := frames?_cons h
      rw [hupdate] at hc'
      cases hc'
      exact ⟨draws, rfl, hshows⟩
  | cons first before ih =>
      obtain ⟨nav', c', draws, shown, hc', -, hshown, rfl⟩ := frames?_cons h
      rw [List.foldlM_cons, hc'] at hrun
      exact ih hrun hshown

/-- After every update of a run the distance is within its limits and the pitch at most one step past its own. The
pitch is within its limits too exactly if no key alone is held that close to them, and the frame displays this
camera. -/
theorem limits_after_updates {c : Camera} {before : List Input} {input : Input} (hc : c.Steady)
    (hbefore : ∀ i ∈ before, i.Measured) (hinput : input.Measured) :
    ∃ c₀ c₁, before.foldlM Camera.update? c = some c₀ ∧ c₀.update? input = some c₁ ∧
      (c.minDistance ≤ c₁.distance ∧ c₁.distance ≤ c.maxDistance) ∧ Level 1.52 c₁.pitch ∧
      (Level 1.5 c₁.pitch ↔ ¬Overtilts input (c₀.aim input)) ∧
      ∀ p nav after frames, frames? p nav c (before ++ input :: after) = some frames →
        ∃ draws, frames[before.length]? = some draws ∧ Displays c₁ draws := by
  obtain ⟨c₀, hrun, hkept⟩ := Camera.exists_run hc hbefore
  obtain ⟨r, q, hupdate, hlow, hhigh, hlevel, hover⟩ := Camera.exists_update hkept.steady hinput
  rw [hkept.minDistance] at hlow
  rw [hkept.maxDistance] at hhigh
  refine ⟨c₀, _, hrun, hupdate, ⟨hlow, hhigh⟩, level_tilt input hlevel, ?_, ?_⟩
  · rw [level_tilt_iff input hlevel, hover]
  · intro p nav after frames hframes
    exact frames?_spec hrun hupdate hframes

theorem limits_after_updates_huge : ∃ p frames draws c₁, Partition.build {} ⟨3, []⟩ = .ok p ∧
    frames? p {} { distance := 100, yaw := 0, pitch := 0.4 }
      [{ dragging := true, delta := ⟨0, -3e38⟩, wheel := ⟨0, 3e38⟩ }, { held := [.up] }] = some frames ∧
    frames[1]? = some draws ∧ Displays c₁ draws ∧ (10 ≤ c₁.distance ∧ c₁.distance ≤ 200) ∧ Level 1.52 c₁.pitch ∧
      ¬Level 1.5 c₁.pitch := by
  let c : Camera := { distance := 100, yaw := 0, pitch := 0.4 }
  let drag : Input := { dragging := true, delta := ⟨0, -3e38⟩, wheel := ⟨0, 3e38⟩ }
  let key : Input := { held := [.up] }
  have hc : c.Steady := by constructor <;> decide +kernel
  have hdrag : ∀ i ∈ [drag], i.Measured := List.forall_mem_singleton.2 (by constructor <;> decide +kernel)
  have hkey : key.Measured := by constructor <;> decide +kernel
  have hshown : ((Partition.build {} ⟨3, []⟩).toOption.bind fun p => frames? p {} c [drag, key]).isSome = true := by
    decide +kernel
  obtain ⟨c₀, c₁, hrun, -, hdistance, hpitch, hlevel, hdisplays⟩ := limits_after_updates hc hdrag hkey
  have haim : ([drag].foldlM Camera.update? c).map Camera.pitch = some 1.5 := by decide +kernel
  rw [hrun, Option.map_some, Option.some.injEq] at haim
  have hover : Overtilts key (c₀.aim key) := by
    refine Or.inl ⟨by decide, by decide, ?_⟩
    change 1.48 < c₀.pitch
    rw [haim]
    decide +kernel
  obtain ⟨frames, hframes⟩ := Option.isSome_iff_exists.1 hshown
  obtain ⟨p, hp, hframes⟩ := Option.bind_eq_some_iff.1 hframes
  obtain ⟨draws, hdraws, hc₁⟩ := hdisplays p {} [] frames hframes
  refine ⟨p, frames, draws, c₁, ?_, hframes, hdraws, hc₁, hdistance, hpitch, fun h => hlevel.1 h hover⟩
  cases hbuild : Partition.build {} ⟨3, []⟩ with
  | error => simp [hbuild, Except.toOption] at hp
  | ok p' => simpa [hbuild, Except.toOption] using hp

theorem pitch_past_limit : Camera.Steady { distance := 100, yaw := 0, pitch := 1.5 } ∧
    (Camera.update? { distance := 100, yaw := 0, pitch := 1.5 } { held := [.up] }).map Camera.pitch = some 1.52 ∧
      ¬Level 1.5 1.52 :=
  ⟨⟨rfl, rfl, rfl, rfl, rfl, by decide +kernel⟩, rfl, fun h => absurd h.2 (by decide +kernel)⟩

end Bisection.View
