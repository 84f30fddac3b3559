import Mathlib
import Bisection.Proofs.AreaChildren

namespace Bisection.Document

open Xml (Element)

variable {N index : Nat} {b : Bound} {c e : Element} {es es' : List Element} {err : Error} {d : Draft} {a : Area}

section Bounds

theorem complete_succ (index : Nat) (b : Bound) (given : List (Nat × Float)) (first count : Nat) :
    complete index b given first (count + 1) =
      match given.lookup first with
      | none => .error (.malformedArea index (b.missing first))
      | some v => (complete index b given (first + 1) count).bind fun rest => .ok (v :: rest) := rfl

theorem complete_eq_ok {given : List (Nat × Float)} {first count : Nat} {values : Point} :
    complete index b given first count = .ok values ↔
      values.map some = (List.range' first count).map fun n => given.lookup n := by
  induction count generalizing first values with
  | zero =>
      constructor
      · rintro ⟨⟩
        rfl
      · intro h
        rw [List.map_eq_nil_iff.1 h]
        rfl
  | succ count ih =>
      rw [complete_succ, List.range'_succ, List.map_cons, List.map_eq_cons_iff]
      cases given.lookup first with
      | none => simp
      | some v =>
          refine bind_eq_ok.trans ?_
          simp only [ih, Except.ok.injEq, Option.some.injEq]
          constructor
          · rintro ⟨rest, hrest, rfl⟩
            exact ⟨v, rest, rfl, rfl, hrest⟩
          · rintro ⟨w, rest, rfl, rfl, hrest⟩
            exact ⟨rest, hrest, rfl⟩

theorem complete_eq_error {given : List (Nat × Float)} {first count : Nat} :
    complete index b given first count = .error err ↔
      ∃ n < count, (∀ m < n, given.lookup (first + m) ≠ none) ∧ given.lookup (first + n) = none ∧
        err = .malformedArea index (b.missing (first + n)) := by
  induction count generalizing first with
  | zero => simp [complete]
  | succ count ih =>
      rw [complete_succ]
      cases hfirst : given.lookup first with
      | none =>
          constructor
          · rintro ⟨⟩
            exact ⟨0, Nat.succ_pos count, fun m hm => absurd hm (Nat.not_lt_zero m), hfirst, rfl⟩
          · rintro ⟨n, -, hbefore, -, rfl⟩
            cases n with
            | zero => rfl
            | succ n => exact absurd hfirst (hbefore 0 (Nat.succ_pos n))
      | some v =>
          have hnext (n : Nat) : first + 1 + n = first + (n + 1) := Nat.add_right_comm first 1 n
          refine bind_eq_error.trans ?_
          simp only [ih, hnext, reduceCtorEq, and_false, exists_false, or_false]
          constructor
          · rintro ⟨n, hn, hbefore, hmissing, rfl⟩
            refine ⟨n + 1, Nat.succ_lt_succ hn, fun m hm => ?_, hmissing, rfl⟩
            cases m with
            | zero => simp [hfirst]
            | succ m => exact hbefore m (Nat.lt_of_succ_lt_succ hm)
          · rintro ⟨n, hn, hbefore, hmissing, rfl⟩
            cases n with
            | zero => cases hfirst.symm.trans hmissing
            | succ n =>
                exact ⟨n, Nat.lt_of_succ_lt_succ hn, fun m hm => hbefore (m + 1) (Nat.succ_lt_succ hm), hmissing, rfl⟩

end Bounds

section Areas

def Bound.values : Bound → Box → Point
  | .low, box => box.low
  | .high, box => box.high

/-- The children of a complete area: all are proper, there is one at least for each bound in each dimension, and one at
least for the label. -/
structure Described (N : Nat) (es : List Element) : Prop where
  proper : ∀ c ∈ es, Proper N c
  bounds : ∀ b, ∀ n < N, inRole es (.bound b (some n)) ≠ []
  label : inRole es .label ≠ []

/-- An area has the bounds and the label that the last children for them give. -/
structure Describes (N : Nat) (es : List Element) (a : Area) : Prop where
  bounds : ∀ b : Bound, (b.values a.bounds).map some = (List.range N).map (lastBound? es b)
  label : lastLabel? es = some a.label

/-- What is missing first, if all children are proper. -/
inductive Lacks (N index : Nat) (es : List Element) : Error → Prop
  | low (n : Nat) (small : n < N) (before : ∀ m < n, inRole es (.bound .low (some m)) ≠ [])
      (absent : inRole es (.bound .low (some n)) = []) : Lacks N index es (.malformedArea index (.missingLow n))
  | high (n : Nat) (small : n < N) (lows : ∀ m < N, inRole es (.bound .low (some m)) ≠ [])
      (before : ∀ m < n, inRole es (.bound .high (some m)) ≠ []) (absent : inRole es (.bound .high (some n)) = []) :
      Lacks N index es (.malformedArea index (.missingHigh n))
  | label (bounds : ∀ b, ∀ n < N, inRole es (.bound b (some n)) ≠ []) (absent : inRole es .label = []) :
      Lacks N index es (.malformedArea index .missingLabel)

/-- Why the area with these children is refused: for the first one that offends, or else for what is missing. -/
inductive Refused (N index : Nat) (es : List Element) : Error → Prop
  | child (before : List Element) (c : Element) (after : List Element) (b : Bound) (err : Error)
      (place : es = before ++ c :: after) (first : ∀ x ∈ before, Proper N x) (tag : c.name = b.tag)
      (offends : Offends N index b c err) : Refused N index es err
  | lack (err : Error) (proper : ∀ c ∈ es, Proper N c) (lacks : Lacks N index es err) : Refused N index es err

theorem mem_inRole {r : Role} : c ∈ inRole es r ↔ c ∈ es ∧ role? c = some r := by
  rw [inRole, List.mem_filter, decide_eq_true_eq]

theorem exists_getLast?_inRole {r : Role} (hc : c ∈ es) (hr : role? c = some r) :
    ∃ x ∈ inRole es r, (inRole es r).getLast? = some x := by
  have hne : inRole es r ≠ [] := List.ne_nil_of_mem (mem_inRole.2 ⟨hc, hr⟩)
  exact ⟨_, List.getLast_mem hne, List.getLast?_eq_some_getLast hne⟩

theorem lastBound?_eq_none (hp : ∀ c ∈ es, Proper N c) {n : Nat} :
    lastBound? es b n = none ↔ inRole es (.bound b (some n)) = [] := by
  rw [← List.getLast?_eq_none_iff, lastBound?]
  cases hlast : (inRole es (.bound b (some n))).getLast? with
  | none => simp
  | some c =>
      -- the last child for the bound is proper, so it has a number
      obtain ⟨hc, hrole⟩ := mem_inRole.1 (List.mem_of_getLast? hlast)
      obtain ⟨-, v, hv, -⟩ := hp c hc ⟨b, (role?_eq_bound.1 hrole).1⟩
      simp [hv]

theorem lastLabel?_eq_none : lastLabel? es = none ↔ inRole es .label = [] := by
  rw [lastLabel?, Option.map_eq_none_iff, List.getLast?_eq_none_iff]

theorem present_of_values (hp : ∀ c ∈ es, Proper N c) {values : Point}
    (h : values.map some = (List.range N).map (lastBound? es b)) : ∀ n < N, inRole es (.bound b (some n)) ≠ [] := by
  intro n hn habsent
  rw [← lastBound?_eq_none hp] at habsent
  have hmem : none ∈ values.map some := h ▸ List.mem_map.2 ⟨n, List.mem_range.2 hn, habsent⟩
  simp at hmem

theorem Describes.described (h : Describes N es a) (hp : ∀ c ∈ es, Proper N c) : Described N es := by
  refine ⟨hp, fun b => present_of_values hp (h.bounds b), ?_⟩
  rw [Ne, ← lastLabel?_eq_none, h.label]
  simp

theorem finish_eq (d : Draft) (N index : Nat) : d.finish N index =
    (complete index .low d.low 0 N).bind fun low => (complete index .high d.high 0 N).bind fun high =>
      match d.label with
      | some label => .ok ⟨⟨low, high⟩, label⟩
      | none => .error (.malformedArea index .missingLabel) := rfl

namespace Draft.Collects

theorem map_lookup (hd : d.Collects es) (b : Bound) :
    ((List.range' 0 N).map fun n => (d.given b).lookup n) = (List.range N).map (lastBound? es b) := by
  rw [List.range_eq_range']
  exact List.map_congr_left fun n _ => hd.bounds b n

theorem finish_eq_ok (hd : d.Collects es) : d.finish N index = .ok a ↔ Describes N es a := by
  rw [finish_eq]
  constructor
  · intro h
    obtain ⟨low, hlow, h⟩ := bind_eq_ok.1 h
    obtain ⟨high, hhigh, h⟩ := bind_eq_ok.1 h
    split at h
    · rename_i label hlabel
      cases h
      refine ⟨fun b => ?_, hd.label.symm.trans hlabel⟩
      rw [← hd.map_lookup b]
      cases b with
      | low => exact complete_eq_ok.1 hlow
      | high => exact complete_eq_ok.1 hhigh
    · cases h
  · intro h
    have hlow := (h.bounds .low).trans (hd.map_lookup .low).symm
    have hhigh := (h.bounds .high).trans (hd.map_lookup .high).symm
    refine bind_eq_ok.2 ⟨_, complete_eq_ok.2 hlow, bind_eq_ok.2 ⟨_, complete_eq_ok.2 hhigh, ?_⟩⟩
    rw [hd.label, h.label]
    rfl

theorem complete_error_iff (hd : d.Collects es) (hp : ∀ c ∈ es, Proper N c) (b : Bound) :
    complete index b (d.given b) 0 N = .error err ↔
      ∃ n < N, (∀ m < n, inRole es (.bound b (some m)) ≠ []) ∧ inRole es (.bound b (some n)) = [] ∧
        err = .malformedArea index (b.missing n) := by
  simp only [complete_eq_error, Nat.zero_add, hd.bounds, ne_eq, lastBound?_eq_none hp]

theorem exists_complete (hd : d.Collects es) (hp : ∀ c ∈ es, Proper N c) (index : Nat) (b : Bound) :
    (∃ values, complete index b (d.given b) 0 N = .ok values) ↔ ∀ n < N, inRole es (.bound b (some n)) ≠ [] := by
  constructor
  · rintro ⟨values, h⟩
    rw [complete_eq_ok, hd.map_lookup] at h
    exact present_of_values hp h
  · intro hall
    cases h : complete index b (d.given b) 0 N with
    | ok values => exact ⟨values, rfl⟩
    | error err =>
        obtain ⟨n, hn, -, habsent, -⟩ := (hd.complete_error_iff hp b).1 h
        exact absurd habsent (hall n hn)

theorem finish_eq_error (hd : d.Collects es) (hp : ∀ c ∈ es, Proper N c) :
    d.finish N index = .error err ↔ Lacks N index es err := by
  rw [finish_eq]
  constructor
  -- what is looked for later is reached only if nothing before it lacks
  · intro h
    rcases bind_eq_error.1 h with hlow | ⟨low, hlow, h⟩
    · obtain ⟨n, hn, hbefore, habsent, rfl⟩ := (hd.complete_error_iff hp .low).1 hlow
      exact .low n hn hbefore habsent
    have hlows := (hd.exists_complete hp index .low).1 ⟨low, hlow⟩
    rcases bind_eq_error.1 h with hhigh | ⟨high, hhigh, h⟩
    · obtain ⟨n, hn, hbefore, habsent, rfl⟩ := (hd.complete_error_iff hp .high).1 hhigh
      exact .high n hn hlows hbefore habsent
    have hhighs := (hd.exists_complete hp index .high).1 ⟨high, hhigh⟩
    split at h
    · cases h
    · rename_i hlabel
      cases h
      refine .label (fun b => ?_) (lastLabel?_eq_none.1 (hd.label.symm.trans hlabel))
      cases b with
      | low => exact hlows
      | high => exact hhighs
  · intro h
    cases h with
    | low n small before absent =>
        exact bind_eq_error.2 (Or.inl ((hd.complete_error_iff hp .low).2 ⟨n, small, before, absent, rfl⟩))
    | high n small lows before absent =>
        obtain ⟨low, hlow⟩ := (hd.exists_complete hp index .low).2 lows
        refine bind_eq_error.2 (Or.inr ⟨low, hlow, bind_eq_error.2 (Or.inl ?_)⟩)
        exact (hd.complete_error_iff hp .high).2 ⟨n, small, before, absent, rfl⟩
    | label bounds absent =>
        obtain ⟨low, hlow⟩ := (hd.exists_complete hp index .low).2 (bounds .low)
        obtain ⟨high, hhigh⟩ := (hd.exists_complete hp index .high).2 (bounds .high)
        refine bind_eq_error.2 (Or.inr ⟨low, hlow, bind_eq_error.2 (Or.inr ⟨high, hhigh, ?_⟩)⟩)
        rw [hd.label, lastLabel?_eq_none.2 absent]

end Draft.Collects

theorem describedArea_eq (N index : Nat) (e : Element) : describedArea N index e =
    (e.elements.foldlM (Draft.add N index) {}).bind fun d => d.finish N index := rfl

theorem describedArea_eq_ok :
    describedArea N index e = .ok a ↔ Described N e.elements ∧ Describes N e.elements a := by
  rw [describedArea_eq, bind_eq_ok]
  constructor
  · rintro ⟨d, hd, hfinish⟩
    have hp := exists_foldlM_add.1 ⟨d, hd⟩
    have ha := (collects_of_foldlM hd).finish_eq_ok.1 hfinish
    exact ⟨ha.described hp, ha⟩
  · rintro ⟨he, ha⟩
    obtain ⟨d, hd⟩ := exists_foldlM_add.2 he.proper
    exact ⟨d, hd, (collects_of_foldlM hd).finish_eq_ok.2 ha⟩

theorem describedArea_eq_error : describedArea N index e = .error err ↔ Refused N index e.elements err := by
  rw [describedArea_eq, bind_eq_error]
  constructor
  · rintro (h | ⟨d, hd, hfinish⟩)
    · obtain ⟨before, c, after, hes, hbefore, b, htag, ho⟩ := foldlM_add_eq_error.1 h
      exact .child before c after b err hes hbefore htag ho
    · have hp := exists_foldlM_add.1 ⟨d, hd⟩
      exact .lack err hp (((collects_of_foldlM hd).finish_eq_error hp).1 hfinish)
  · intro h
    cases h with
    | child before c after b err place first tag offends =>
        exact Or.inl (foldlM_add_eq_error.2 ⟨before, c, after, place, first, b, tag, offends⟩)
    | lack err proper lacks =>
        obtain ⟨d, hd⟩ := exists_foldlM_add.2 proper
        exact Or.inr ⟨d, hd, ((collects_of_foldlM hd).finish_eq_error proper).2 lacks⟩

theorem Described.not_lacks (h : Described N es) : ¬Lacks N index es err := by
  rintro (⟨n, small, -, absent⟩ | ⟨n, small, -, -, absent⟩ | ⟨-, absent⟩)
  · exact h.bounds .low n small absent
  · exact h.bounds .high n small absent
  · exact h.label absent

theorem exists_describedArea : (∃ a, describedArea N index e = .ok a) ↔ Described N e.elements := by
  constructor
  · rintro ⟨a, ha⟩
    exact (describedArea_eq_ok.1 ha).1
  · intro h
    obtain ⟨d, hd⟩ := exists_foldlM_add.2 h.proper
    rw [describedArea_eq, hd]
    cases hfinish : d.finish N index with
    | ok a => exact ⟨a, hfinish⟩
    | error err => exact absurd (((collects_of_foldlM hd).finish_eq_error h.proper).1 hfinish) h.not_lacks

theorem readArea_eq_ok : readArea N index e = .ok a ↔ Described N e.elements ∧ Describes N e.elements a := by
  have harea : describedArea N index e = .ok a ↔ _ := describedArea_eq_ok
  rw [← harea, readArea]
  cases describedArea N index e <;> simp [Except.mapError]

theorem readArea_eq_error : readArea N index e = .error err ↔
    addressable 16 N = true ∧ Refused N index e.elements err ∨
      addressable 16 N = false ∧ ¬Described N e.elements ∧ err = .beyondMemory N := by
  have harea : (∃ a, describedArea N index e = .ok a) ↔ _ := exists_describedArea
  rw [← describedArea_eq_error, ← harea, readArea]
  cases addressable 16 N <;> cases describedArea N index e <;> simp [Except.mapError, eq_comm]

theorem exists_readArea : (∃ a, readArea N index e = .ok a) ↔ Described N e.elements := by
  have harea : (∃ a, describedArea N index e = .ok a) ↔ _ := exists_describedArea
  rw [← harea]
  simp only [readArea_eq_ok, describedArea_eq_ok]

theorem readAreasFrom_cons (N index : Nat) (e : Element) (rest : List Element) : readAreasFrom N index (e :: rest) =
    (readArea N index e).bind fun a => (readAreasFrom N (index + 1) rest).bind fun areas => .ok (a :: areas) := rfl

theorem readAreasFrom_eq_ok {areas : List Area} : readAreasFrom N index es = .ok areas ↔
    List.Forall₂ (fun e a => Described N e.elements ∧ Describes N e.elements a) es areas := by
  induction es generalizing index areas with
  | nil =>
      rw [List.forall₂_nil_left_iff]
      constructor
      · rintro ⟨⟩
        rfl
      · rintro rfl
        rfl
  | cons e es ih =>
      rw [readAreasFrom_cons, List.forall₂_cons_left_iff, bind_eq_ok]
      constructor
      · rintro ⟨a, ha, h⟩
        obtain ⟨rest, hrest, h⟩ := bind_eq_ok.1 h
        cases h
        exact ⟨a, rest, readArea_eq_ok.1 ha, ih.1 hrest, rfl⟩
      · rintro ⟨a, rest, ha, hrest, rfl⟩
        exact ⟨a, readArea_eq_ok.2 ha, bind_eq_ok.2 ⟨rest, ih.2 hrest, rfl⟩⟩

theorem exists_readAreasFrom : (∃ areas, readAreasFrom N index es = .ok areas) ↔ ∀ e ∈ es, Described N e.elements := by
  induction es generalizing index with
  | nil => exact ⟨fun _ e he => absurd he List.not_mem_nil, fun _ => ⟨[], rfl⟩⟩
  | cons e es ih =>
      rw [List.forall_mem_cons, ← exists_readArea, ← ih, readAreasFrom_cons]
      constructor
      · rintro ⟨areas, h⟩
        obtain ⟨a, ha, h⟩ := bind_eq_ok.1 h
        obtain ⟨rest, hrest, -⟩ := bind_eq_ok.1 h
        exact ⟨⟨a, ha⟩, rest, hrest⟩
      · rintro ⟨⟨a, ha⟩, rest, hrest⟩
        exact ⟨a :: rest, bind_eq_ok.2 ⟨a, ha, bind_eq_ok.2 ⟨rest, hrest, rfl⟩⟩⟩

theorem readAreasFrom_eq_error : readAreasFrom N index es = .error err ↔
    ∃ before e after, es = before ++ e :: after ∧ (∀ x ∈ before, Described N x.elements) ∧
      readArea N (index + before.length) e = .error err := by
  induction es generalizing index with
  | nil =>
      constructor
      · rintro ⟨⟩
      · rintro ⟨before, e, after, h, -⟩
        simp at h
  | cons e es ih =>
      rw [readAreasFrom_cons, bind_eq_error]
      constructor
      · rintro (h | ⟨a, ha, h⟩)
        · exact ⟨[], e, es, rfl, by simp, h⟩
        · have hrest : readAreasFrom N (index + 1) es = .error err := by
            rcases bind_eq_error.1 h with h | ⟨areas, -, h⟩
            · exact h
            · cases h
          obtain ⟨before, x, after, rfl, hbefore, hx⟩ := ih.1 hrest
          refine ⟨e :: before, x, after, rfl, List.forall_mem_cons.2 ⟨(readArea_eq_ok.1 ha).1, hbefore⟩, ?_⟩
          rwa [List.length_cons, Nat.add_comm before.length, ← Nat.add_assoc]
      · rintro ⟨before, x, after, hes, hbefore, hx⟩
        cases before with
        | nil =>
            cases hes
            exact Or.inl hx
        | cons y before =>
            cases hes
            obtain ⟨hy, hbefore⟩ := List.forall_mem_cons.1 hbefore
            obtain ⟨a, ha⟩ := exists_readArea.2 hy
            rw [List.length_cons, Nat.add_comm before.length, ← Nat.add_assoc] at hx
            exact Or.inr ⟨a, ha, bind_eq_error.2 (Or.inl (ih.2 ⟨before, x, after, rfl, hbefore, hx⟩))⟩

theorem dimensions_eq_ok {root : Element} : dimensions root = .ok N ↔
    ∃ text, root.attribute? "dimensions" = some text ∧ readNatural? (trimmed text) = some N ∧ 0 < N := by
  unfold dimensions
  cases root.attribute? "dimensions" with
  | none => simp
  | some text =>
      simp only [Option.some.injEq, exists_eq_left']
      rcases readNatural? (trimmed text) with _ | _ | n
      · simp
      · simp only [reduceCtorEq, Option.some.injEq, false_iff]
        omega
      · simp only [Except.ok.injEq, Option.some.injEq]
        omega

theorem areasOf_eq {root : Element} (h : dimensions root = .ok N) : areasOf root =
    (readAreasFrom N 0 (root.childrenNamed "area")).bind fun areas => .ok ⟨N, areas⟩ := by
  rw [areasOf, h]
  rfl

/-- Two lists of children that differ only in the order of different roles and in children without one. -/
def SameRoles (es es' : List Element) : Prop := ∀ r, inRole es r = inRole es' r

theorem proper_iff : (∀ c ∈ es, Proper N c) ↔ ∀ b o, ∀ c ∈ inRole es (.bound b o), Proper N c := by
  constructor
  · exact fun h b o c hc => h c (mem_inRole.1 hc).1
  · rintro h c hc ⟨b, htag⟩
    exact h b _ c (mem_inRole.2 ⟨hc, role?_eq_bound.2 ⟨htag, rfl⟩⟩) ⟨b, htag⟩

theorem SameRoles.described (h : SameRoles es es') (hd : Described N es) : Described N es' := by
  have hp := proper_iff.1 hd.proper
  have hb := hd.bounds
  have hl := hd.label
  simp only [h _] at hp hb hl
  exact ⟨proper_iff.2 hp, hb, hl⟩

theorem SameRoles.describes (h : SameRoles es es') (hd : Describes N es a) : Describes N es' a := by
  have hbound (b : Bound) : lastBound? es b = lastBound? es' b := funext fun n => by rw [lastBound?, h, lastBound?]
  have hlabel : lastLabel? es = lastLabel? es' := by rw [lastLabel?, h, lastLabel?]
  exact ⟨fun b => hbound b ▸ hd.bounds b, hlabel ▸ hd.label⟩

theorem forall₂_of_sameRoles {areas : List Area}
    (hsame : List.Forall₂ (fun e e' => SameRoles e.elements e'.elements) es es')
    (h : List.Forall₂ (fun e a => Described N e.elements ∧ Describes N e.elements a) es areas) :
    List.Forall₂ (fun e a => Described N e.elements ∧ Describes N e.elements a) es' areas := by
  induction hsame generalizing areas with
  | nil => exact h
  | cons hsame _ ih =>
      obtain ⟨a, rest, ⟨hd, ha⟩, hrest, rfl⟩ := List.forall₂_cons_left_iff.1 h
      exact .cons ⟨hsame.described hd, hsame.describes ha⟩ (ih hrest)

theorem areasOf_eq_ok {root : Element} {l : AreaList} (h : dimensions root = .ok N) : areasOf root = .ok l ↔
    l.dimensions = N ∧ List.Forall₂ (fun e a => Described N e.elements ∧ Describes N e.elements a)
      (root.childrenNamed "area") l.areas := by
  rw [areasOf_eq h, bind_eq_ok]
  constructor
  · rintro ⟨areas, hareas, ⟨⟩⟩
    exact ⟨rfl, readAreasFrom_eq_ok.1 hareas⟩
  · rintro ⟨rfl, hareas⟩
    exact ⟨l.areas, readAreasFrom_eq_ok.2 hareas, rfl⟩

theorem exists_areasOf {root : Element} (h : dimensions root = .ok N) :
    (∃ l, areasOf root = .ok l) ↔ ∀ e ∈ root.childrenNamed "area", Described N e.elements := by
  rw [areasOf_eq h]
  constructor
  · rintro ⟨l, hl⟩
    obtain ⟨areas, hareas, -⟩ := bind_eq_ok.1 hl
    exact exists_readAreasFrom.1 ⟨areas, hareas⟩
  · intro hall
    obtain ⟨areas, hareas⟩ := exists_readAreasFrom.2 hall
    exact ⟨⟨N, areas⟩, bind_eq_ok.2 ⟨areas, hareas, rfl⟩⟩

theorem areasOf_eq_error {root : Element} (h : dimensions root = .ok N) : areasOf root = .error err ↔
    readAreasFrom N 0 (root.childrenNamed "area") = .error err := by
  rw [areasOf_eq h, bind_eq_error]
  simp

theorem parse_eq_ok {allowDoctype : Bool} {xml : String} {root : Element} :
    parse allowDoctype xml = .ok root ↔ Xml.parse allowDoctype xml = .ok root := by
  rw [parse]
  split <;> simp_all

theorem readAreas_of_parse {xml : String} {root : Element} (h : parse true xml = .ok root) :
    readAreas xml = areasOf root := by
  rw [readAreas, h]
  rfl

theorem areasOf_of_sameRoles {root root' : Element} {l : AreaList} (h : dimensions root = .ok N)
    (h' : dimensions root' = .ok N)
    (hsame : List.Forall₂ (fun e e' => SameRoles e.elements e'.elements) (root.childrenNamed "area")
      (root'.childrenNamed "area")) (hl : areasOf root = .ok l) : areasOf root' = .ok l := by
  obtain ⟨hdim, hareas⟩ := (areasOf_eq_ok h).1 hl
  exact (areasOf_eq_ok h').2 ⟨hdim, forall₂_of_sameRoles hsame hareas⟩

/-- A list is accepted exactly if all of its areas are complete. Then it has these areas in their order, each with the
bounds and the label that come last, and the order of children with different roles does not matter. Otherwise the first
area that is not complete is refused, for its first child that offends or for what it lacks first; only where the bounds
of an area cannot be addressed, the room for them is what is missing. -/
theorem areasOf_accepts_complete {root : Element} {text : String} (hattr : root.attribute? "dimensions" = some text)
    (hread : readNatural? (trimmed text) = some N) (hpos : 0 < N) :
    ((∃ l, areasOf root = .ok l) ↔ ∀ e ∈ root.childrenNamed "area", Described N e.elements) ∧
    (∀ l, areasOf root = .ok l → l.dimensions = N ∧
      List.Forall₂ (fun e a => Describes N e.elements a) (root.childrenNamed "area") l.areas) ∧
    (∀ root' l, dimensions root' = .ok N →
      List.Forall₂ (fun e e' => SameRoles e.elements e'.elements) (root.childrenNamed "area")
        (root'.childrenNamed "area") → (areasOf root = .ok l ↔ areasOf root' = .ok l)) ∧
    (∀ err, areasOf root = .error err ↔ ∃ before e after, root.childrenNamed "area" = before ++ e :: after ∧
      (∀ x ∈ before, Described N x.elements) ∧
      (addressable 16 N = true ∧ Refused N before.length e.elements err ∨
        addressable 16 N = false ∧ ¬Described N e.elements ∧ err = .beyondMemory N)) ∧
    ∀ xml, parse true xml = .ok root → readAreas xml = areasOf root := by
  have hdim : dimensions root = .ok N := dimensions_eq_ok.2 ⟨text, hattr, hread, hpos⟩
  refine ⟨exists_areasOf hdim, ?_, ?_, ?_, fun xml => readAreas_of_parse⟩
  · intro l hl
    obtain ⟨hl, hareas⟩ := (areasOf_eq_ok hdim).1 hl
    exact ⟨hl, hareas.imp fun _ _ h => h.2⟩
  · intro root' l hdim' hsame
    refine ⟨areasOf_of_sameRoles hdim hdim' hsame, areasOf_of_sameRoles hdim' hdim ?_⟩
    exact hsame.flip.imp fun _ _ h r => (h r).symm
  · intro err
    rw [areasOf_eq_error hdim, readAreasFrom_eq_error]
    simp only [Nat.zero_add, readArea_eq_error]

theorem areasOf_accepts_complete_repeated :
    let root : Element := ⟨"arealist", [⟨.none, "dimensions", " 1 "⟩], [.text "\n", .element "area" []
      [.element "prefix" [] [.text "0"], .element "max" [⟨.none, "dimension", "0"⟩] [.text " 5 "],
        .element "min" [⟨.none, "dimension", "0"⟩] [.text "7"], .element "note" [] [],
        .element "min" [⟨.none, "dimension", "+0"⟩] [.text "-2"], .element "prefix" [] [.text " 1 "]]]⟩
    root.attribute? "dimensions" = some " 1 " ∧ readNatural? (trimmed " 1 ") = some 1 ∧
      areasOf root = .ok ⟨1, [⟨⟨[-2], [5]⟩, "1"⟩]⟩ ∧
      (∀ e ∈ root.childrenNamed "area", Described 1 e.elements) ∧
      List.Forall₂ (fun e a => Describes 1 e.elements a) (root.childrenNamed "area") [⟨⟨[-2], [5]⟩, "1"⟩] := by
  intro root
  have hattr : root.attribute? "dimensions" = some " 1 " := rfl
  have hread : readNatural? (trimmed " 1 ") = some 1 := by decide
  have hareas : areasOf root = .ok ⟨1, [⟨⟨[-2], [5]⟩, "1"⟩]⟩ := rfl
  obtain ⟨haccepts, hresult, -⟩ := areasOf_accepts_complete hattr hread Nat.one_pos
  exact ⟨hattr, hread, hareas, haccepts.1 ⟨_, hareas⟩, (hresult _ hareas).2⟩

/-- An area without children lacks its first lower bound; where there is no room for the bounds, that comes first. -/
theorem areasOf_beyond_memory :
    let root : Element := ⟨"arealist", [⟨.none, "dimensions", "576460752303423488"⟩], [.element "area" [] []]⟩
    dimensions root = .ok 576460752303423488 ∧ root.childrenNamed "area" = [⟨"area", [], []⟩] ∧
      Refused 576460752303423488 0 [] (.malformedArea 0 (.missingLow 0)) ∧
      areasOf root = .error (.beyondMemory 576460752303423488) := by
  intro root
  have hdim : dimensions root = .ok 576460752303423488 := by
    refine dimensions_eq_ok.2 ⟨"576460752303423488", rfl, by decide, by decide⟩
  have hareas : root.childrenNamed "area" = [⟨"area", [], []⟩] := rfl
  have hlacks : Lacks 576460752303423488 0 [] (.malformedArea 0 (.missingLow 0)) :=
    .low 0 (by decide) (fun m hm => absurd hm (Nat.not_lt_zero m)) rfl
  refine ⟨hdim, hareas, .lack _ (fun c hc => absurd hc List.not_mem_nil) hlacks, ?_⟩
  rw [areasOf_eq_error hdim, hareas, readAreasFrom_eq_error]
  refine ⟨[], ⟨"area", [], []⟩, [], rfl, fun x hx => absurd hx List.not_mem_nil, ?_⟩
  exact readArea_eq_error.2 (Or.inr ⟨by decide, fun h => h.label rfl, rfl⟩)

end Areas

end Bisection.Document
