import Mathlib
import Bisection.Proofs.Events
import Bisection.Proofs.Scanning

namespace Bisection.Xml

inductive Node.AllText (P : String → Prop) : Node → Prop
  | element {name : String} {as : List Attribute} {children : List Node} (h : ∀ n ∈ children, AllText P n) :
      AllText P (.element name as children)
  | text {s : String} (h : P s) : AllText P (.text s)
  | comment {s : String} : AllText P (.comment s)
  | instruction {target s : String} : AllText P (.instruction target s)

namespace Progress

structure AllText (P : String → Prop) (p : Progress) : Prop where
  frames : ∀ f ∈ p.frames, ∀ n ∈ f.reversed, n.AllText P
  root : ∀ e ∈ p.root, ∀ n ∈ e.children, n.AllText P

variable {P : String → Prop} {p q : Progress}

theorem allText_empty : AllText P {} := ⟨by simp, by simp⟩

namespace AllText

theorem add (h : p.AllText P) {n : Node} (hn : n.AllText P) : (p.add n).AllText P := by
  obtain ⟨frames, root, joining, pending⟩ := p
  cases frames with
  | nil =>
      refine ⟨by simp [Progress.add], ?_⟩
      cases root with
      | none =>
          intro e he m hm
          cases hn with
          | element hchildren =>
              cases he
              exact hchildren m hm
          | text => cases he
          | comment => cases he
          | instruction => cases he
      | some e => exact h.root
  | cons f fs =>
      obtain ⟨hf, hfs⟩ := List.forall_mem_cons.1 h.frames
      exact ⟨List.forall_mem_cons.2 ⟨List.forall_mem_cons.2 ⟨hn, hf⟩, hfs⟩, h.root⟩

theorem addText (h : p.AllText P) {s : String} (hs : P s) (hjoin : p.joining = true → ∀ t, P t → P (t ++ s)) :
    (p.addText s).AllText P := by
  obtain ⟨frames, root, joining, pending⟩ := p
  cases frames with
  | nil => exact ⟨h.frames, h.root⟩
  | cons f fs =>
      obtain ⟨hf, hfs⟩ := List.forall_mem_cons.1 h.frames
      refine ⟨List.forall_mem_cons.2 ⟨?_, hfs⟩, h.root⟩
      have hnew : ∀ n ∈ (f.add (.text s)).reversed, n.AllText P := List.forall_mem_cons.2 ⟨.text hs, hf⟩
      cases joining with
      | false => exact hnew
      | true =>
          rw [if_pos rfl, Frame.extend]
          split
          · rename_i t before hbefore
            rw [hbefore] at hf
            obtain ⟨ht, hrest⟩ := List.forall_mem_cons.1 hf
            cases ht with
            | text ht => exact List.forall_mem_cons.2 ⟨.text (hjoin rfl t ht), hrest⟩
          · exact hnew

theorem start? (h : p.AllText P) {name : QName} {values : List (QName × String)} {ending : TagEnd}
    (hq : p.start? name values ending = some q) : q.AllText P := by
  cases ending with
  | opened =>
      obtain ⟨-, f, hf, rfl⟩ := start?_opened.1 hq
      obtain ⟨-, hempty⟩ := openFrame?_eq_some hf
      exact ⟨List.forall_mem_cons.2 ⟨by simp [hempty], h.frames⟩, h.root⟩
  | closed =>
      obtain ⟨-, f, hf, rfl⟩ := start?_closed.1 hq
      obtain ⟨-, hempty⟩ := openFrame?_eq_some hf
      have hadd := h.add (n := f.node) (.element (by simp [hempty]))
      exact ⟨hadd.frames, hadd.root⟩
  | missing =>
      obtain ⟨-, -, rfl⟩ := start?_missing.1 hq
      exact ⟨h.frames, h.root⟩

theorem stop (h : p.AllText P) {name : QName} (hq : p.stop name = .ok q) : q.AllText P := by
  obtain ⟨-, f, fs, hframes, -, rfl⟩ := stop_eq_ok.1 hq
  have hall := h.frames
  rw [hframes] at hall
  obtain ⟨hf, hfs⟩ := List.forall_mem_cons.1 hall
  have hrest : AllText P { p with frames := fs, pending := [] } := ⟨hfs, h.root⟩
  exact hrest.add (.element (by simpa using hf))

end AllText

theorem finish_eq_ok {root : Element} : p.finish = .ok root ↔ p.frames = [] ∧ p.root = some root := by
  rw [finish]
  split <;> simp_all

theorem AllText.finish (h : p.AllText P) {root : Element} (hroot : p.finish = .ok root) :
    ∀ n ∈ root.children, n.AllText P := h.root root (finish_eq_ok.1 hroot).2

end Progress

def IsLegal (s : String) : Prop := s.toList.all isChar = true

def Event.Legal : Event → Prop
  | .text s => IsLegal s
  | _ => True

def Piece.Legal : Piece → Prop
  | .literal c => isChar c = true
  | .character c => isChar c = true
  | _ => True

/-- A reference is to a legal character or to an entity. -/
def Piece.Refers (p : Piece) : Prop := (∃ c, isChar c = true ∧ p = .character c) ∨ ∃ name, p = .entity name

theorem Piece.Refers.legal {p : Piece} (h : p.Refers) : p.Legal := by
  rcases h with ⟨c, hc, rfl⟩ | ⟨name, rfl⟩
  · exact hc
  · trivial

theorem refers_numbered? {base : ℕ} {digits : List Char} {p : Piece} (h : numbered? base digits = some p) :
    p.Refers := by
  unfold numbered? charOfNumber? at h
  grind [Piece.Refers]

theorem refers_named (name : String) : (named name).Refers := by
  unfold named
  split <;> first | exact .inl ⟨_, by decide, rfl⟩ | exact .inr ⟨name, rfl⟩

theorem referenceBody?_spec {cs rest : List Char} {p : Piece} (h : referenceBody? cs = some (p, rest)) :
    p.Refers ∧ rest <:+ cs := by
  unfold referenceBody? at h
  split at h
  · obtain ⟨q, hq, heq⟩ := Option.map_eq_some_iff.1 h
    cases heq
    exact ⟨refers_numbered? hq, ((List.dropWhile_suffix _).trans (List.suffix_cons _ _)).trans (List.suffix_cons _ _)⟩
  · obtain ⟨q, hq, heq⟩ := Option.map_eq_some_iff.1 h
    cases heq
    exact ⟨refers_numbered? hq, (List.dropWhile_suffix _).trans (List.suffix_cons _ _)⟩
  · obtain ⟨⟨name, r⟩, hname, heq⟩ := Option.map_eq_some_iff.1 h
    cases heq
    obtain ⟨run, -, -, rfl, -⟩ := name?_reads hname
    exact ⟨refers_named name, List.suffix_append _ _⟩

theorem reference?_spec {cs rest : List Char} {p : Piece} (h : reference? cs = some (p, rest)) :
    p.Refers ∧ ∃ body, cs = body ++ ';' :: rest := by
  unfold reference? at h
  split at h
  · rename_i hbody
    cases h
    obtain ⟨hrefers, body, hcs⟩ := referenceBody?_spec hbody
    exact ⟨hrefers, body, hcs.symm⟩
  · cases h

theorem legal_pieces {cs : List Char} (h : cs.all isChar = true) : ∀ p ∈ pieces cs, p.Legal := by
  fun_induction pieces cs with
  | case1 => simp
  | case2 cs p rest hp _ ih =>
      obtain ⟨hrefers, body, rfl⟩ := reference?_spec hp
      refine List.forall_mem_cons.2 ⟨hrefers.legal, ih ?_⟩
      simp only [List.all_cons, List.all_append, Bool.and_eq_true] at h
      exact h.2.2.2
  | case3 => simp [Piece.Legal]
  | case4 c cs _ ih =>
      rw [List.all_cons, Bool.and_eq_true] at h
      exact List.forall_mem_cons.2 ⟨h.1, ih h.2⟩

namespace Run

variable {r : Run} {c : Char}

theorem legal_push (hr : ∀ d ∈ r.reversed, isChar d = true) (hc : isChar c = true) (last : Bool) :
    ∀ d ∈ (r.push c last).reversed, isChar d = true := by
  have hline : isChar '\n' = true := by decide
  unfold push
  split
  · grind
  · grind

theorem legal_pushVerbatim (hr : ∀ d ∈ r.reversed, isChar d = true) (hc : isChar c = true) (verbatim : Bool) :
    ∀ d ∈ (r.pushVerbatim c verbatim).reversed, isChar d = true := List.forall_mem_cons.2 ⟨hc, hr⟩

theorem legal_events (hr : ∀ d ∈ r.reversed, isChar d = true) : ∀ e ∈ r.events, e.Legal := by
  unfold events
  split
  · simp
  · simpa [Event.Legal, IsLegal] using hr

end Run

theorem legal_textPieces {entities : List Entity} {outermost : Bool} {inner : ContentReader}
    (hinner : ∀ value count, ∀ e ∈ (inner value count).1, e.Legal) {run : Run}
    (hrun : ∀ d ∈ run.reversed, isChar d = true) {ps : List Piece} (hps : ∀ p ∈ ps, p.Legal) (count : ℕ) :
    ∀ e ∈ (textPieces entities outermost inner run ps count).1, e.Legal := by
  induction ps generalizing run count with
  | nil => exact Run.legal_events hrun
  | cons p ps ih =>
      obtain ⟨hp, hrest⟩ := List.forall_mem_cons.1 hps
      cases p with
      | literal c =>
          rw [textPieces]
          split
          · exact ih (Run.legal_pushVerbatim hrun hp _) hrest count
          · exact ih (Run.legal_push hrun hp _) hrest count
      | character c =>
          rw [textPieces]
          split
          · exact ih (Run.legal_pushVerbatim hrun hp _) hrest count
          · exact ih (Run.legal_push hrun hp _) hrest count
      | entity name =>
          rw [textPieces]
          split
          · simp [Event.Legal]
          · rename_i value count' _
            simp only [List.forall_mem_append]
            exact ⟨⟨Run.legal_events hrun, hinner value count'⟩, ih (by simp) hrest _⟩
      | broken => simp [textPieces, Event.Legal]

theorem legal_cdataText {run : Run} (hrun : ∀ d ∈ run.reversed, isChar d = true) {raw : List Char}
    (h : raw.all isChar = true) : IsLegal (cdataText run raw) := by
  induction raw generalizing run with
  | nil => simpa [cdataText, IsLegal] using hrun
  | cons c raw ih =>
      rw [List.all_cons, Bool.and_eq_true] at h
      exact ih (Run.legal_push hrun h.1 _) h.2

def Token.Legal : Token → Prop
  | .text raw => raw.all isChar = true
  | .cdata raw => raw.all isChar = true
  | _ => True

theorem Token.legal_of_next? {t : Token} {cs rest : List Char} (h : next? cs = some (t, rest)) : t.Legal := by
  obtain ⟨tok, hspelled, -⟩ := takes_of_next? h
  cases hspelled with
  | text _ _ hchars => exact hchars
  | cdata hchars => exact hchars
  | start => trivial
  | stop => trivial
  | comment => trivial
  | instruction => trivial

theorem legal_tokens (level : ℕ) (cs : List Char) : ∀ t ∈ (tokens level cs).1, t.Legal := by
  fun_induction tokens level cs with
  | case1 => simp
  | case2 => simp [Token.Legal]
  | case3 level cs _ t rest hnext => simpa using Token.legal_of_next? hnext
  | case4 level cs _ t rest hnext _ _ ts r hts ih =>
      rw [hts] at ih
      exact List.forall_mem_cons.2 ⟨Token.legal_of_next? hnext, ih⟩

theorem legal_tokenEvents {entities : List Entity} {outermost : Bool} {value : ValueReader} {inner : ContentReader}
    (hinner : ∀ value count, ∀ e ∈ (inner value count).1, e.Legal) {ts : List Token} (hts : ∀ t ∈ ts, t.Legal)
    (started : Bool) (count : ℕ) : ∀ e ∈ (tokenEvents entities outermost value inner started ts count).1, e.Legal := by
  induction ts generalizing started count with
  | nil => simp [tokenEvents]
  | cons t ts ih =>
      obtain ⟨ht, hts⟩ := List.forall_mem_cons.1 hts
      have hmore := ih hts
      cases t with
      | start name as ending =>
          rw [tokenEvents]
          cases attributeValues value as count with
          | none => exact List.forall_mem_append.2 ⟨by simp [Event.Legal], hmore _ _⟩
          | some values => exact List.forall_mem_append.2 ⟨by simp [Event.Legal], hmore _ _⟩
      | stop name =>
          refine List.forall_mem_append.2 ⟨?_, hmore _ _⟩
          cases started <;> simp [Event.Legal]
      | text raw =>
          exact List.forall_mem_append.2 ⟨legal_textPieces hinner (by simp) (legal_pieces ht) count, hmore _ _⟩
      | cdata raw =>
          have hlegal : IsLegal (cdataText {} raw) := legal_cdataText (by simp) ht
          exact List.forall_mem_append.2 ⟨by simpa [Event.Legal] using hlegal, hmore _ _⟩
      | comment raw => exact List.forall_mem_append.2 ⟨by simp [Event.Legal], hmore _ _⟩
      | instruction target raw => exact List.forall_mem_append.2 ⟨by simp [Event.Legal], hmore _ _⟩
      | broken => exact List.forall_mem_append.2 ⟨by simp [Event.Legal], hmore _ _⟩

theorem legal_entityEvents (entities : List Entity) (level : ℕ) (raw : List Char) (count : ℕ) :
    ∀ e ∈ (entityEvents entities level raw count).1, e.Legal := by
  induction level generalizing raw count with
  | zero => simp [entityEvents, Event.Legal]
  | succ level ih => exact legal_tokenEvents ih (legal_tokens 1 raw) false count

theorem legal_documentEvents (entities : List Entity) {ts : List Token} (hts : ∀ t ∈ ts, t.Legal) :
    ∀ e ∈ documentEvents entities ts, e.Legal :=
  legal_tokenEvents (legal_entityEvents entities maxNesting) hts true 0

theorem Progress.AllText.foldlM_step {p q : Progress} {es : List Event} (hp : p.AllText IsLegal)
    (hes : ∀ e ∈ es, e.Legal) (hrun : es.foldlM step p = .ok q) : q.AllText IsLegal := by
  induction es generalizing p with
  | nil => cases hrun; exact hp
  | cons e es ih =>
      obtain ⟨he, hes⟩ := List.forall_mem_cons.1 hes
      obtain ⟨p', hp', hrun⟩ := foldlM_cons_eq_ok.1 hrun
      refine ih ?_ hes hrun
      cases e with
      | start name values ending =>
          rw [step] at hp'
          split at hp'
          · cases hp'
            exact hp.start? ‹_›
          · cases hp'
      | stop name => exact hp.stop hp'
      | text s =>
          cases hp'
          refine hp.addText he fun _ t ht => ?_
          simp only [IsLegal, String.toList_append, List.all_append, Bool.and_eq_true]
          exact ⟨ht, he⟩
      | comment s => cases hp'; exact hp.add .comment
      | instruction target s => cases hp'; exact hp.add .instruction
      | fault => cases hp'

/-- All text in the tree of a document is legal. -/
theorem legal_of_parse {allowDoctype : Bool} {text : String} {root : Element}
    (h : parse allowDoctype text = .ok root) : ∀ n ∈ root.children, n.AllText IsLegal := by
  obtain ⟨entities, cs, name, as, ending, ts, rest, p, -, htokens, hrun, -, hroot⟩ := parse_eq_ok.1 h
  have hlegal := legal_tokens 0 cs
  rw [htokens] at hlegal
  rw [← Progress.foldlM_events] at hrun
  exact (Progress.allText_empty.foldlM_step (legal_documentEvents entities hlegal) hrun).finish hroot

end Bisection.Xml
