import Mathlib
import Bisection.Document.AreaList
import Bisection.Proofs.Outcome

namespace Bisection

theorem foldlM_eq_error {ε σ α : Type} {f : σ → α → Except ε σ} {l : List α} {s : σ} {e : ε} :
    l.foldlM f s = .error e ↔
      ∃ before a after t, l = before ++ a :: after ∧ before.foldlM f s = .ok t ∧ f t a = .error e := by
  induction l generalizing s with
  | nil =>
      simp only [List.foldlM_nil]
      constructor
      · intro h
        cases h
      · rintro ⟨before, a, after, t, h, -⟩
        simp at h
  | cons x l ih =>
      rw [List.foldlM_cons]
      refine bind_eq_error.trans ?_
      constructor
      · rintro (h | ⟨u, hu, h⟩)
        · exact ⟨[], x, l, s, rfl, rfl, h⟩
        · obtain ⟨before, a, after, t, rfl, hbefore, ha⟩ := ih.1 h
          refine ⟨x :: before, a, after, t, rfl, ?_, ha⟩
          rw [List.foldlM_cons]
          exact bind_eq_ok.2 ⟨u, hu, hbefore⟩
      · rintro ⟨before, a, after, t, hl, hbefore, ha⟩
        cases before with
        | nil =>
            cases hl
            cases hbefore
            exact Or.inl ha
        | cons y before =>
            cases hl
            rw [List.foldlM_cons] at hbefore
            obtain ⟨u, hu, hbefore⟩ := bind_eq_ok.1 hbefore
            exact Or.inr ⟨u, hu, ih.2 ⟨before, a, after, t, rfl, hbefore, ha⟩⟩

theorem exists_mem_of_forall₂ {α β : Type} {R : α → β → Prop} {as : List α} {bs : List β} (h : List.Forall₂ R as bs) :
    ∀ b ∈ bs, ∃ a ∈ as, R a b := by
  induction h with
  | nil => simp
  | cons hab _ ih =>
      refine List.forall_mem_cons.2 ⟨⟨_, List.mem_cons_self, hab⟩, fun b hb => ?_⟩
      obtain ⟨a, ha, hab⟩ := ih b hb
      exact ⟨a, List.mem_cons_of_mem _ ha, hab⟩

def Xml.Element.elements (e : Xml.Element) : List Xml.Element := e.children.filterMap Xml.Node.element?

namespace Document

open Xml (Element)

variable {N index : Nat} {b : Bound} {c e : Element} {es before : List Element} {err : Error} {d d' : Draft} {a : Area}

section Numbers

def HasNumber (e : Element) : Prop := ∃ v, readFloat? (trimmed e.leadingText) = some v ∧ v.isFinite = true

theorem number_of_hasNumber {place : NumberPlace} {v : Float} (h : readFloat? (trimmed e.leadingText) = some v)
    (hv : v.isFinite = true) : number place e = .ok v := by
  rw [number, h]
  exact if_pos hv

theorem number_of_not {place : NumberPlace} (h : ¬HasNumber e) :
    number place e = .error (.invalidNumber place (String.ofList (trimmed e.leadingText))) := by
  unfold number
  split
  · rename_i x hx
    exact if_neg fun hfin => h ⟨x, hx, hfin⟩
  · rfl

end Numbers

section Children

/-- What a child of an area is for: a bound in the dimension that it names, if it names one, or the label. -/
inductive Role where
  | bound (b : Bound) (dimension : Option Nat)
  | label
  deriving DecidableEq

def dimension? (c : Element) : Option Nat := (c.attribute? "dimension").bind fun text => readNatural? (trimmed text)

def role? (c : Element) : Option Role :=
  if c.name = "prefix" then some .label else (Bound.ofTag? c.name).map fun b => .bound b (dimension? c)

def inRole (es : List Element) (r : Role) : List Element := es.filter fun c => role? c = some r

/-- A bound needs a dimension below `N` and a finite number; other children need nothing. -/
def Proper (N : Nat) (c : Element) : Prop :=
  (∃ b : Bound, c.name = b.tag) → (∃ n < N, dimension? c = some n) ∧ HasNumber c

/-- What is wrong with a bound, in the order in which it is noticed. -/
inductive Offends (N index : Nat) (b : Bound) (c : Element) : Error → Prop
  | noDimension (absent : c.attribute? "dimension" = none) :
      Offends N index b c (.malformedArea index (.noDimension b.tag))
  | badDimension (text : String) (given : c.attribute? "dimension" = some text)
      (bad : readNatural? (trimmed text) = none) : Offends N index b c (.malformedArea index (.badDimension text))
  | dimensionRange (d : Nat) (named : dimension? c = some d) (large : N ≤ d) :
      Offends N index b c (.malformedArea index (.dimensionRange d N))
  | number (d : Nat) (named : dimension? c = some d) (small : d < N) (bad : ¬HasNumber c) :
      Offends N index b c (.invalidNumber (b.place index) (String.ofList (trimmed c.leadingText)))

theorem ofTag?_eq_some {name : String} : Bound.ofTag? name = some b ↔ name = b.tag := by
  constructor
  · unfold Bound.ofTag?
    split
    · rintro ⟨⟩
      rfl
    · rintro ⟨⟩
      rfl
    · rintro ⟨⟩
  · rintro rfl
    cases b <;> rfl

theorem tag_ne_labelTag (b : Bound) : b.tag ≠ "prefix" := by cases b <;> decide

theorem role?_eq_label : role? c = some .label ↔ c.name = "prefix" := by
  unfold role?
  split <;> simp [*]

theorem role?_eq_bound {o : Option Nat} : role? c = some (.bound b o) ↔ c.name = b.tag ∧ dimension? c = o := by
  unfold role?
  split
  · rename_i hname
    simp [hname, (tag_ne_labelTag b).symm]
  · simp [Option.map_eq_some_iff, ← ofTag?_eq_some]

theorem boundDimension_eq_ok {n : Nat} : boundDimension N index b c = .ok n ↔ dimension? c = some n ∧ n < N := by
  unfold boundDimension dimension?
  cases c.attribute? "dimension" with
  | none => simp
  | some text =>
      simp only [Option.bind_some]
      cases readNatural? (trimmed text) with
      | none => simp
      | some m =>
          by_cases hm : m < N
          · simp only [hm, if_true, Except.ok.injEq, Option.some.injEq, iff_self_and]
            rintro rfl
            exact hm
          · simp only [hm, if_false, reduceCtorEq, Option.some.injEq, false_iff, not_and]
            rintro rfl
            exact hm

theorem add_bound (h : c.name = b.tag) : d.add N index c =
    (boundDimension N index b c).bind fun n => (number (b.place index) c).bind fun v => .ok (d.give b n v) := by
  have hother : (b.tag == "prefix") = false := beq_eq_false_iff_ne.2 (tag_ne_labelTag b)
  rw [Draft.add, h, hother, ofTag?_eq_some.2 rfl]
  rfl

theorem add_label (h : c.name = "prefix") :
    d.add N index c = .ok { d with label := some (String.ofList (trimmed c.leadingText)) } := by
  rw [Draft.add, h]
  rfl

theorem add_other (h : role? c = none) : d.add N index c = .ok d := by
  unfold role? at h
  split at h
  · cases h
  · rename_i hname
    rw [Draft.add, if_neg (by simpa using hname), Option.map_eq_none_iff.1 h]

theorem add_of_offends (h : c.name = b.tag) (ho : Offends N index b c err) : d.add N index c = .error err := by
  rw [add_bound h]
  cases ho with
  | noDimension absent =>
      rw [boundDimension, absent]
      rfl
  | badDimension text given bad =>
      rw [boundDimension, given]
      simp only [bad]
      rfl
  | dimensionRange n named large =>
      obtain ⟨text, htext, hn⟩ := Option.bind_eq_some_iff.1 named
      rw [boundDimension, htext]
      simp only [hn, if_neg (Nat.not_lt.2 large)]
      rfl
  | number n named small bad =>
      rw [boundDimension_eq_ok.2 ⟨named, small⟩, number_of_not bad]
      rfl

theorem exists_offends (index : Nat) (b : Bound) (h : ¬Proper N c) : ∃ err, Offends N index b c err := by
  cases hattr : c.attribute? "dimension" with
  | none => exact ⟨_, .noDimension hattr⟩
  | some text =>
      cases hread : readNatural? (trimmed text) with
      | none => exact ⟨_, .badDimension text hattr hread⟩
      | some n =>
          have hn : dimension? c = some n := by rw [dimension?, hattr, Option.bind_some, hread]
          by_cases hlt : n < N
          · exact ⟨_, .number n hn hlt fun hnumber => h fun _ => ⟨⟨n, hlt, hn⟩, hnumber⟩⟩
          · exact ⟨_, .dimensionRange n hn (Nat.not_lt.1 hlt)⟩

inductive Takes (N : Nat) (d : Draft) (c : Element) : Draft → Prop
  | label (tag : c.name = "prefix") : Takes N d c { d with label := some (String.ofList (trimmed c.leadingText)) }
  | other (tag : role? c = none) : Takes N d c d
  | bound (b : Bound) (n : Nat) (v : Float) (role : role? c = some (.bound b (some n))) (small : n < N)
      (value : readFloat? (trimmed c.leadingText) = some v) (finite : v.isFinite = true) : Takes N d c (d.give b n v)

/-- A child is taken in or refused, and both for a stated reason. -/
theorem add_cases (N index : Nat) (d : Draft) (c : Element) :
    (Proper N c ∧ ∃ d', d.add N index c = .ok d' ∧ Takes N d c d') ∨
      ¬Proper N c ∧ ∃ b err, d.add N index c = .error err ∧ c.name = b.tag ∧ Offends N index b c err := by
  have hfree (hno : ∀ b : Bound, c.name ≠ b.tag) : Proper N c := fun ⟨b, hb⟩ => absurd hb (hno b)
  cases hrole : role? c with
  | none =>
      have hno (b : Bound) : c.name ≠ b.tag := fun hb => by
        rw [role?_eq_bound.2 ⟨hb, rfl⟩] at hrole
        cases hrole
      exact Or.inl ⟨hfree hno, d, add_other hrole, .other hrole⟩
  | some role =>
      cases role with
      | label =>
          have hname := role?_eq_label.1 hrole
          have hno (b : Bound) : c.name ≠ b.tag := fun hb => tag_ne_labelTag b (hb.symm.trans hname)
          exact Or.inl ⟨hfree hno, _, add_label hname, .label hname⟩
      | bound b o =>
          obtain ⟨htag, ho⟩ := role?_eq_bound.1 hrole
          -- a bound is refused exactly if it is not proper
          by_cases hp : Proper N c
          · obtain ⟨⟨n, hlt, hn⟩, v, hv, hfin⟩ := hp ⟨b, htag⟩
            refine Or.inl ⟨hp, d.give b n v, ?_, .bound b n v (role?_eq_bound.2 ⟨htag, hn⟩) hlt hv hfin⟩
            rw [add_bound htag, boundDimension_eq_ok.2 ⟨hn, hlt⟩, number_of_hasNumber hv hfin]
            rfl
          · obtain ⟨err, herr⟩ := exists_offends index b hp
            exact Or.inr ⟨hp, b, err, add_of_offends htag herr, htag, herr⟩

theorem add_eq_ok (h : d.add N index c = .ok d') : Proper N c ∧ Takes N d c d' := by
  obtain ⟨hp, u, hu, ht⟩ | ⟨-, b, err, herr, -⟩ := add_cases N index d c
  · cases hu.symm.trans h
    exact ⟨hp, ht⟩
  · cases herr.symm.trans h

theorem add_eq_error :
    d.add N index c = .error err ↔ ∃ b : Bound, c.name = b.tag ∧ Offends N index b c err := by
  constructor
  · intro h
    obtain ⟨-, u, hu, -⟩ | ⟨-, b, err', herr, htag, ho⟩ := add_cases N index d c
    · cases hu.symm.trans h
    · cases herr.symm.trans h
      exact ⟨b, htag, ho⟩
  · rintro ⟨b, htag, ho⟩
    exact add_of_offends htag ho

theorem exists_foldlM_add : (∃ d', es.foldlM (Draft.add N index) d = .ok d') ↔ ∀ c ∈ es, Proper N c := by
  induction es generalizing d with
  | nil => exact ⟨fun _ c hc => absurd hc List.not_mem_nil, fun _ => ⟨d, rfl⟩⟩
  | cons c es ih =>
      rw [List.forall_mem_cons, List.foldlM_cons]
      constructor
      · rintro ⟨d', h⟩
        obtain ⟨u, hu, h⟩ := bind_eq_ok.1 h
        exact ⟨(add_eq_ok hu).1, ih.1 ⟨d', h⟩⟩
      · rintro ⟨hc, hes⟩
        obtain ⟨-, u, hu, -⟩ | ⟨hn, -⟩ := add_cases N index d c
        · obtain ⟨d', h⟩ := ih.2 hes
          exact ⟨d', bind_eq_ok.2 ⟨u, hu, h⟩⟩
        · exact absurd hc hn

theorem foldlM_add_eq_error : es.foldlM (Draft.add N index) d = .error err ↔
    ∃ before c after, es = before ++ c :: after ∧ (∀ x ∈ before, Proper N x) ∧
      ∃ b : Bound, c.name = b.tag ∧ Offends N index b c err := by
  rw [foldlM_eq_error]
  constructor
  · rintro ⟨before, c, after, t, hes, hbefore, hc⟩
    exact ⟨before, c, after, hes, exists_foldlM_add.1 ⟨t, hbefore⟩, add_eq_error.1 hc⟩
  · rintro ⟨before, c, after, hes, hbefore, hc⟩
    obtain ⟨t, ht⟩ := exists_foldlM_add.2 hbefore
    exact ⟨before, c, after, t, hes, ht, add_eq_error.2 hc⟩

end Children

section Drafts

def lastBound? (es : List Element) (b : Bound) (n : Nat) : Option Float :=
  (inRole es (.bound b (some n))).getLast?.bind fun c => readFloat? (trimmed c.leadingText)

def lastLabel? (es : List Element) : Option String :=
  (inRole es .label).getLast?.map fun c => String.ofList (trimmed c.leadingText)

def Draft.given (d : Draft) : Bound → List (Nat × Float)
  | .low => d.low
  | .high => d.high

/-- A draft holds what the last children have given. -/
structure Draft.Collects (d : Draft) (es : List Element) : Prop where
  bounds : ∀ b n, (d.given b).lookup n = lastBound? es b n
  label : d.label = lastLabel? es

theorem getLast?_inRole_concat (es : List Element) (c : Element) (r : Role) :
    (inRole (es ++ [c]) r).getLast? = if role? c = some r then some c else (inRole es r).getLast? := by
  rw [inRole, List.filter_append]
  by_cases hr : role? c = some r
  · simp [hr]
  · simp [hr, inRole]

theorem lookup_give (d : Draft) (b b' : Bound) (n m : Nat) (v : Float) :
    ((d.give b n v).given b').lookup m = if b = b' ∧ n = m then some v else (d.given b').lookup m := by
  by_cases hn : n = m
  · subst hn
    cases b <;> cases b' <;> simp [Draft.give, Draft.given]
  · have hm : (m == n) = false := beq_eq_false_iff_ne.2 (Ne.symm hn)
    cases b <;> cases b' <;> simp [Draft.give, Draft.given, List.lookup_cons, hn, hm]

theorem lastBound?_concat (es : List Element) (c : Element) (b : Bound) (n : Nat) : lastBound? (es ++ [c]) b n =
    if role? c = some (.bound b (some n)) then readFloat? (trimmed c.leadingText) else lastBound? es b n := by
  rw [lastBound?, getLast?_inRole_concat, lastBound?]
  split <;> rfl

theorem lastLabel?_concat (es : List Element) (c : Element) : lastLabel? (es ++ [c]) =
    if role? c = some .label then some (String.ofList (trimmed c.leadingText)) else lastLabel? es := by
  rw [lastLabel?, getLast?_inRole_concat, lastLabel?]
  split <;> rfl

theorem Takes.collects (h : Takes N d c d') (hd : d.Collects es) : d'.Collects (es ++ [c]) := by
  cases h with
  | label tag =>
      have hrole := role?_eq_label.2 tag
      refine ⟨fun b n => ?_, ?_⟩
      · rw [lastBound?_concat, if_neg (by simp [hrole])]
        exact hd.bounds b n
      · rw [lastLabel?_concat, if_pos hrole]
  | other tag =>
      refine ⟨fun b n => ?_, ?_⟩
      · rw [lastBound?_concat, if_neg (by simp [tag])]
        exact hd.bounds b n
      · rw [lastLabel?_concat, if_neg (by simp [tag])]
        exact hd.label
  | bound b n v role small value =>
      refine ⟨fun b' m => ?_, ?_⟩
      · rw [lookup_give, lastBound?_concat, role, value, hd.bounds]
        simp only [Option.some.injEq, Role.bound.injEq]
      · have hlabel : (d.give b n v).label = d.label := by cases b <;> rfl
        rw [lastLabel?_concat, if_neg (by simp [role]), hlabel]
        exact hd.label

theorem Draft.Collects.foldlM (hd : d.Collects before) (h : es.foldlM (Draft.add N index) d = .ok d') :
    d'.Collects (before ++ es) := by
  induction es generalizing d before with
  | nil =>
      cases h
      rwa [List.append_nil]
  | cons c es ih =>
      rw [List.foldlM_cons] at h
      obtain ⟨u, hu, h⟩ := bind_eq_ok.1 h
      have hall := ih ((add_eq_ok hu).2.collects hd) h
      rwa [List.append_assoc] at hall

theorem collects_of_foldlM (h : es.foldlM (Draft.add N index) {} = .ok d) : d.Collects es := by
  have hstart : Draft.Collects {} [] := ⟨fun b n => by cases b <;> rfl, rfl⟩
  exact hstart.foldlM h

end Drafts

end Document

end Bisection
