import Mathlib
import Bisection.Proofs.Cutting
import Bisection.Xml.Document

namespace Bisection

section Folding

variable {ε σ α : Type} {f : σ → α → Except ε σ} {s t : σ}

theorem foldlM_cons_eq_ok {a : α} {l : List α} :
    (a :: l).foldlM f s = .ok t ↔ ∃ s', f s a = .ok s' ∧ l.foldlM f s' = .ok t := by
  rw [List.foldlM_cons]
  exact bind_eq_ok

theorem foldlM_append_eq_ok {l m : List α} :
    (l ++ m).foldlM f s = .ok t ↔ ∃ s', l.foldlM f s = .ok s' ∧ m.foldlM f s' = .ok t := by
  rw [List.foldlM_append]
  exact bind_eq_ok

end Folding

namespace Xml

section Counting

variable {entities : List Entity}

theorem entityAt?_outermost (name : String) (count : ℕ) :
    entityAt? entities true name count = entityAt? entities true name 0 := by
  simp [entityAt?]

theorem attributePieces_outermost (inner : ValueReader) (ps : List Piece) (count : ℕ) :
    (attributePieces entities true inner ps count).map Prod.fst =
      (attributePieces entities true inner ps 0).map Prod.fst := by
  have hjoin (out : List Char) (read : Option (List Char × ℕ)) :
      (read.bind fun x => some (out ++ x.1, x.2)).map Prod.fst = (read.map Prod.fst).map (out ++ ·) := by
    cases read <;> rfl
  induction ps generalizing count with
  | nil => rfl
  | cons piece ps ih =>
      cases piece with
      | literal c =>
          simp only [attributePieces, Option.bind_eq_bind, Option.bind_some]
          rw [hjoin, hjoin, ih]
      | character c =>
          simp only [attributePieces, if_true, Option.bind_eq_bind, Option.bind_some]
          rw [hjoin, hjoin, ih]
      | entity name => simp only [attributePieces, entityAt?_outermost name count]
      | broken => rfl

theorem attributeValues_outermost (as : List RawAttribute) (count : ℕ) :
    (attributeValues (attributeValue entities maxNesting) as count).map Prod.fst =
      (attributeValues (attributeValue entities maxNesting) as 0).map Prod.fst := by
  induction as generalizing count with
  | nil => rfl
  | cons a as ih =>
      have hvalue : (attributeValue entities maxNesting a.value count).map Prod.fst =
          (attributeValue entities maxNesting a.value 0).map Prod.fst :=
        attributePieces_outermost (attributeValue entities 9) (pieces a.value) count
      simp only [attributeValues, Option.bind_eq_bind]
      cases hv : attributeValue entities maxNesting a.value count with
      | none =>
          rw [hv, Option.map_none, eq_comm, Option.map_eq_none_iff] at hvalue
          rw [hvalue]
      | some v =>
          rw [hv, Option.map_some, eq_comm, Option.map_eq_some_iff] at hvalue
          obtain ⟨⟨w, count'⟩, hw, rfl⟩ := hvalue
          have hjoin (read : Option (List (QName × String) × ℕ)) :
              (read.bind fun x => some ((a.name, String.ofList v.1) :: x.1, x.2)).map Prod.fst =
                (read.map Prod.fst).map ((a.name, String.ofList v.1) :: ·) := by
            cases read <;> rfl
          rw [hw]
          simp only [Option.bind_some]
          rw [hjoin, hjoin, ih, ih count']

theorem textPieces_outermost (inner : ContentReader) (run : Run) (ps : List Piece) (count : ℕ) :
    (textPieces entities true inner run ps count).1 = (textPieces entities true inner run ps 0).1 := by
  induction ps generalizing run count with
  | nil => rfl
  | cons piece ps ih =>
      cases piece with
      | literal c => exact ih _ count
      | character c => exact ih _ count
      | entity name =>
          simp only [textPieces, entityAt?_outermost name count]
          cases entityAt? entities true name 0 <;> rfl
      | broken => rfl

end Counting

def attributesOf (entities : List Entity) (as : List RawAttribute) : Option (List (QName × String)) :=
  (attributeValues (attributeValue entities maxNesting) as 0).map Prod.fst

def textEvents (entities : List Entity) (raw : List Char) : List Event :=
  (textPieces entities true (entityEvents entities maxNesting) {} (pieces raw) 0).1

def Token.events (entities : List Entity) : Token → List Event
  | .start name as ending =>
    match attributesOf entities as with
    | some values => [.start name values ending]
    | none => [.fault]
  | .stop name => [.stop name]
  | .text raw => textEvents entities raw
  | .cdata raw => [.text (cdataText {} raw)]
  | .comment raw => [.comment (String.ofList raw)]
  | .instruction target raw => [.instruction target (String.ofList raw)]
  | .broken => [.fault]

theorem tokenEvents_outermost (entities : List Entity) (ts : List Token) (count : ℕ) :
    (tokenEvents entities true (attributeValue entities maxNesting) (entityEvents entities maxNesting) true ts
      count).1 = ts.flatMap (Token.events entities) := by
  induction ts generalizing count with
  | nil => rfl
  | cons t ts ih =>
      rw [List.flatMap_cons]
      cases t with
      | start name as ending =>
          have hvalues : _ = attributesOf entities as := attributeValues_outermost as count
          rw [tokenEvents, Token.events, ← hvalues]
          cases attributeValues (attributeValue entities maxNesting) as count with
          | none => simp only [ih, Option.map_none]
          | some values => simp only [ih, Option.map_some]
      | text raw => simp only [tokenEvents, ih, Token.events, textEvents, textPieces_outermost _ _ _ count]
      | stop name => simp only [tokenEvents, ih, Token.events, if_true]
      | cdata raw => simp only [tokenEvents, ih, Token.events]
      | comment raw => simp only [tokenEvents, ih, Token.events]
      | instruction target raw => simp only [tokenEvents, ih, Token.events]
      | broken => simp only [tokenEvents, ih, Token.events]

theorem documentEvents_eq (entities : List Entity) (ts : List Token) :
    documentEvents entities ts = ts.flatMap (Token.events entities) := tokenEvents_outermost entities ts 0

theorem openFrame?_eq_some {scope : Scope} {name : QName} {values : List (QName × String)} {f : Frame}
    (h : openFrame? scope name values = some f) : f.name = name ∧ f.reversed = [] := by
  simp only [openFrame?, Option.bind_eq_bind, Option.bind_eq_some_iff] at h
  obtain ⟨x, -, h⟩ := h
  split at h
  · cases h
  · cases h
    exact ⟨rfl, rfl⟩

namespace Progress

variable {entities : List Entity} {p q : Progress}

/-- Where a document stands after one token more. -/
def take (entities : List Entity) (p : Progress) (t : Token) : Except Fault Progress :=
  (t.events entities).foldlM step p

theorem foldlM_events (p : Progress) (ts : List Token) :
    (documentEvents entities ts).foldlM step p = ts.foldlM (take entities) p := by
  rw [documentEvents_eq]
  induction ts generalizing p with
  | nil => rfl
  | cons t ts ih => rw [List.flatMap_cons, List.foldlM_append, List.foldlM_cons, funext ih]; rfl

theorem take_start_eq_ok {name : QName} {as : List RawAttribute} {ending : TagEnd} :
    p.take entities (.start name as ending) = .ok q ↔
      ∃ values, attributesOf entities as = some values ∧ p.start? name values ending = some q := by
  rw [take, Token.events]
  cases attributesOf entities as with
  | none => simp [step]
  | some values => cases h : p.start? name values ending <;> simp [step, h]

@[simp]
theorem take_stop (name : QName) : p.take entities (.stop name) = p.stop name := by
  simp [take, Token.events, step]

@[simp]
theorem take_cdata (raw : List Char) : p.take entities (.cdata raw) = .ok (p.addText (cdataText {} raw)) := rfl

@[simp]
theorem take_comment (raw : List Char) :
    p.take entities (.comment raw) = .ok (p.add (.comment (String.ofList raw))) := rfl

@[simp]
theorem take_instruction (target : String) (raw : List Char) :
    p.take entities (.instruction target raw) = .ok (p.add (.instruction target (String.ofList raw))) := rfl

@[simp]
theorem take_broken : p.take entities .broken = .error .malformed := rfl

theorem start?_missing {name : QName} {values : List (QName × String)} :
    p.start? name values .missing = some q ↔ name.space ≠ "xmlns" ∧ (declarations? (p.pending ++ values)).isSome ∧
      { p with pending := p.pending ++ values, joining := false } = q := by
  by_cases hspace : name.space = "xmlns"
  · simp [start?, hspace]
  · cases h : declarations? (p.pending ++ values) <;> simp [start?, hspace, h]

theorem start?_opened {name : QName} {values : List (QName × String)} :
    p.start? name values .opened = some q ↔ name.space ≠ "xmlns" ∧ ∃ f,
      openFrame? p.scope name (p.pending ++ values) = some f ∧
        { p with frames := f :: p.frames, pending := [], joining := false } = q := by
  by_cases hspace : name.space = "xmlns"
  · simp [start?, hspace]
  · simp [start?, hspace]

theorem start?_closed {name : QName} {values : List (QName × String)} :
    p.start? name values .closed = some q ↔ name.space ≠ "xmlns" ∧ ∃ f,
      openFrame? p.scope name (p.pending ++ values) = some f ∧ { p.add f.node with pending := [] } = q := by
  by_cases hspace : name.space = "xmlns"
  · simp [start?, hspace]
  · simp [start?, hspace]

theorem stop_eq_ok {name : QName} : p.stop name = .ok q ↔ (enter? p.scope p.pending).isSome ∧ ∃ f fs,
    p.frames = f :: fs ∧ name = f.name ∧ { p with frames := fs, pending := [] }.add f.node = q := by
  rw [stop]
  cases enter? p.scope p.pending with
  | none => simp
  | some x =>
      cases p.frames with
      | nil => simp
      | cons f fs =>
          by_cases hname : name = f.name
          · simp [hname]
          · simp [hname]

/-- What every token preserves, together with the text that is left, holds at the end of the tokens. -/
theorem invariant_of_tokens {I : Progress → List Char → Prop}
    (hstep : ∀ {p q : Progress} {t : Token} {cs rest : List Char},
      I p cs → Token.next? cs = some (t, rest) → p.take entities t = .ok q → I q rest)
    {level : ℕ} {cs rest : List Char} {ts : List Token} (htokens : tokens level cs = (ts, rest))
    (hrun : ts.foldlM (take entities) p = .ok q) (h : I p cs) : I q rest := by
  fun_induction tokens level cs generalizing p ts with
  | case1 level cs hempty =>
      cases htokens
      cases hrun
      rwa [List.isEmpty_iff.1 hempty] at h
  | case2 => cases htokens; cases hrun
  | case3 level cs _ t r hnext _ hlevel =>
      cases htokens
      obtain ⟨p', hp', hq⟩ := foldlM_cons_eq_ok.1 hrun
      cases hq
      exact hstep h hnext hp'
  | case4 level cs _ t r hnext _ hlevel ts' r' hrest ih =>
      cases htokens
      obtain ⟨p', hp', hq⟩ := foldlM_cons_eq_ok.1 hrun
      exact ih hrest hq (hstep h hnext hp')

end Progress

theorem parse_eq_ok {allowDoctype : Bool} {text : String} {root : Element} :
    parse allowDoctype text = .ok root ↔ ∃ entities cs name as ending ts rest p,
      opening? allowDoctype text = some (entities, cs) ∧ tokens 0 cs = (.start name as ending :: ts, rest) ∧
        (.start name as ending :: ts).foldlM (Progress.take entities) {} = .ok p ∧ misc? rest = some [] ∧
          p.finish = .ok root := by
  rw [parse]
  constructor
  · intro h
    split at h
    · cases h
    · rename_i entities cs hopen
      split at h
      · rename_i name as ending ts rest htokens
        rw [parseTokens, Progress.foldlM_events] at h
        obtain ⟨p, hrun, h⟩ := bind_eq_ok.1 h
        split at h
        · exact ⟨entities, cs, name, as, ending, ts, rest, p, hopen, htokens, hrun, ‹_›, h⟩
        · cases h
      · cases h
  · rintro ⟨entities, cs, name, as, ending, ts, rest, p, hopen, htokens, hrun, hrest, hroot⟩
    rw [hopen]
    simp only [htokens, parseTokens, Progress.foldlM_events, hrun, hrest, if_true]
    exact hroot

end Xml

end Bisection
