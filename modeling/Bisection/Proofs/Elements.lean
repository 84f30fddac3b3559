import Mathlib
import Bisection.Proofs.Events
import Bisection.Proofs.Markup

namespace Bisection.Xml

theorem pieces_eq_nil {cs : List Char} : pieces cs = [] ↔ cs = [] := by
  fun_cases pieces cs <;> simp

theorem pieces_plain {cs : List Char} (h : '&' ∉ cs) : pieces cs = cs.map .literal := by
  induction cs with
  | nil => rw [pieces]; rfl
  | cons c cs ih =>
      obtain ⟨hc, hcs⟩ := not_or.1 (mt List.mem_cons.2 h)
      rw [pieces.eq_3 _ _ (Ne.symm hc), ih hcs]
      rfl

theorem Run.push_plain {r : Run} {c : Char} (hr : '\r' ∉ r.reversed) (hc : c ≠ '\r') (last : Bool) :
    r.push c last = ⟨c :: r.reversed, false⟩ := by
  unfold push
  split
  · rename_i before hbefore
    exact absurd (by rw [hbefore]; exact List.mem_cons_self) hr
  · simp [hc]

theorem textPieces_literals (entities : List Entity) (outermost : Bool) (inner : ContentReader) (count : ℕ) {run : Run}
    {cs : List Char} (hv : run.verbatim = false) (hr : '\r' ∉ run.reversed) (hcs : '\r' ∉ cs) :
    textPieces entities outermost inner run (cs.map .literal) count =
      ((⟨cs.reverse ++ run.reversed, false⟩ : Run).events, count) := by
  induction cs generalizing run with
  | nil =>
      obtain ⟨reversed, verbatim⟩ := run
      cases hv
      rfl
  | cons c cs ih =>
      obtain ⟨hc, hcs⟩ := not_or.1 (mt List.mem_cons.2 hcs)
      have hpush (last : Bool) := Run.push_plain hr (Ne.symm hc) last
      rw [List.map_cons, textPieces]
      simp only [hv, hpush]
      rw [if_neg Bool.false_ne_true, ih rfl (by simp [hr, hc]) hcs]
      simp

theorem textPieces_plain {content : String} (hne : content.toList ≠ []) (h : content.toList.all isPlain = true)
    (entities : List Entity) (outermost : Bool) (inner : ContentReader) (count : ℕ) :
    textPieces entities outermost inner {} (pieces content.toList) count = ([.text content], count) := by
  have hamp : '&' ∉ content.toList := fun hm => ne_of_mem h hm rfl rfl
  have hreturn : '\r' ∉ content.toList := fun hm => ne_of_mem h hm rfl rfl
  rw [pieces_plain hamp, textPieces_literals _ _ _ _ rfl List.not_mem_nil hreturn]
  simp [Run.events, hne]

theorem attributePieces_literals (entities : List Entity) (outermost : Bool) (inner : ValueReader) (count : ℕ)
    {cs : List Char} (h : cs.all isPlainValue = true) :
    attributePieces entities outermost inner (cs.map .literal) count = some (cs, count) := by
  induction cs with
  | nil => rfl
  | cons c cs ih =>
      have hne {d : Char} (hd : isPlainValue d = false) : c ≠ d := ne_of_mem h List.mem_cons_self hd
      have hblank (next : Option Piece) : attributeBlank c next = [c] := by
        simp [attributeBlank, hne (d := '\r') rfl, hne (d := '\n') rfl, hne (d := '\t') rfl]
      rw [List.all_cons, Bool.and_eq_true] at h
      rw [List.map_cons, attributePieces]
      simp only [hblank, Option.bind_eq_bind, Option.bind_some]
      rw [ih h.2]
      rfl

def Attribute.given (a : Attribute) : QName × String := (⟨"", a.name⟩, a.value)

theorem attributeValues_raw {as : List Attribute} (h : ∀ a ∈ as, a.Plain) (entities : List Entity) (count : ℕ) :
    attributeValues (attributeValue entities maxNesting) (as.map Attribute.raw) count =
      some (as.map Attribute.given, count) := by
  induction as with
  | nil => rfl
  | cons a as ih =>
      have ha := h a List.mem_cons_self
      have hamp : '&' ∉ a.value.toList := fun hm => ne_of_mem ha.value hm rfl rfl
      have hvalue : attributeValue entities maxNesting a.value.toList count = some (a.value.toList, count) := by
        rw [← attributePieces_literals entities true (attributeValue entities 9) count ha.value, ← pieces_plain hamp]
        rfl
      rw [List.map_cons, attributeValues, Attribute.raw, hvalue]
      simp only [Option.bind_eq_bind, Option.bind_some]
      rw [ih fun b hb => h b (List.mem_cons_of_mem a hb)]
      simp [Attribute.given]

theorem declarations?_given {as : List Attribute} (h : ∀ a ∈ as, a.Plain) :
    declarations? (as.map Attribute.given) = some [] := by
  induction as with
  | nil => rfl
  | cons a as ih =>
      have ha := (h a List.mem_cons_self).undeclared
      rw [List.map_cons, Attribute.given, declarations?, ih fun b hb => h b (List.mem_cons_of_mem a hb)]
      simp [ha]

theorem resolve?_given (scope : Scope) {as : List Attribute} (h : ∀ a ∈ as, a.Plain)
    (hdistinct : as.Pairwise fun a b => a.name ≠ b.name) : resolve? scope (as.map Attribute.given) = some as := by
  induction as with
  | nil => rfl
  | cons a as ih =>
      obtain ⟨hnew, hrest⟩ := List.pairwise_cons.1 hdistinct
      have ha := h a List.mem_cons_self
      rw [List.map_cons, Attribute.given, resolve?, ih (fun b hb => h b (List.mem_cons_of_mem a hb)) hrest]
      simpa [isDeclaration, ha.undeclared, ← ha.space] using fun b hb _ => Ne.symm (hnew b hb)

theorem PlainTag.openFrame? {name : String} {as : List Attribute} (h : PlainTag name as) (scope : Scope) :
    openFrame? scope ⟨"", name⟩ (as.map Attribute.given) = some ⟨⟨"", name⟩, scope, as, []⟩ := by
  simp [Xml.openFrame?, enter?, declarations?_given h.plain, resolve?_given scope h.plain h.distinct]

theorem attributesOf_raw {as : List Attribute} (h : ∀ a ∈ as, a.Plain) (entities : List Entity) :
    attributesOf entities (as.map Attribute.raw) = some (as.map Attribute.given) := by
  rw [attributesOf, attributeValues_raw h]
  rfl

namespace Progress

variable {entities : List Entity} {p : Progress} {f : Frame} {fs : List Frame}

theorem take_startTag {name : String} {as : List Attribute} (htag : PlainTag name as) (hp : p.pending = []) :
    p.take entities (.start ⟨"", name⟩ (as.map Attribute.raw) .opened) =
      .ok { p with frames := ⟨⟨"", name⟩, p.scope, as, []⟩ :: p.frames, pending := [], joining := false } := by
  refine take_start_eq_ok.2 ⟨_, attributesOf_raw htag.plain entities, start?_opened.2 ⟨by simp, _, ?_, rfl⟩⟩
  rw [hp, List.nil_append, htag.openFrame?]

theorem take_endTag {name : QName} (hf : p.frames = f :: fs) (hname : name = f.name) (hp : p.pending = []) :
    p.take entities (.stop name) = .ok ({ p with frames := fs, pending := [] }.add f.node) := by
  rw [take_stop]
  refine stop_eq_ok.2 ⟨?_, f, fs, hf, hname, rfl⟩
  rw [hp]
  rfl

theorem take_text {content : String} (hne : content.toList ≠ []) (h : PlainText content.toList)
    (hf : p.frames = f :: fs) (hj : p.joining = false) :
    p.take entities (.text content.toList) =
      .ok { p with frames := f.add (.text content) :: fs, joining := true } := by
  have hadd : p.addText content = { p with frames := f.add (.text content) :: fs, joining := true } := by
    simp [addText, hf, hj]
  rw [take, Token.events, textEvents, textPieces_plain hne h.plain, ← hadd]
  rfl

/-- Inside an element, the tokens stand for the nodes. -/
def Adds (entities : List Entity) (ts : List Token) (ns : List Node) : Prop :=
  ∀ (p : Progress) (f : Frame) (fs : List Frame), p.frames = f :: fs → p.pending = [] →
    (p.joining = true → ∀ s, ns.head? ≠ some (.text s)) →
    ∃ joining, ts.foldlM (take entities) p =
      .ok { p with frames := { f with reversed := ns.reverse ++ f.reversed } :: fs, joining }

namespace Adds

variable {ts us : List Token} {ns children : List Node}

theorem nil : Adds entities [] [] := by
  intro p f fs hf _ _
  obtain ⟨frames, root, joining, pending⟩ := p
  cases hf
  exact ⟨joining, rfl⟩

theorem text {content : String} (hne : content.toList ≠ []) (hc : PlainText content.toList)
    (hsep : ∀ s, ns.head? ≠ some (.text s)) (h : Adds entities ts ns) :
    Adds entities (.text content.toList :: ts) (.text content :: ns) := by
  intro p f fs hf hp hj
  have hjoin : p.joining = false := Bool.eq_false_of_not_eq_true fun hjoin => hj hjoin content rfl
  obtain ⟨joining, hrun⟩ := h { p with frames := f.add (.text content) :: fs, joining := true } _ _ rfl hp fun _ => hsep
  refine ⟨joining, foldlM_cons_eq_ok.2 ⟨_, take_text hne hc hf hjoin, hrun.trans ?_⟩⟩
  simp [Frame.add]

/-- An element is added as one node, inside another or as the root. -/
theorem foldlM_element {name : String} {as : List Attribute} (htag : PlainTag name as)
    (h : Adds entities ts children) (hp : p.pending = []) :
    (.start ⟨"", name⟩ (as.map Attribute.raw) .opened :: (ts ++ [.stop ⟨"", name⟩])).foldlM (take entities) p =
      .ok (p.add (.element name as children)) := by
  obtain ⟨frames, root, joining, pending⟩ := p
  cases hp
  obtain ⟨joining', hinner⟩ :=
    h ⟨⟨⟨"", name⟩, scope ⟨frames, root, joining, []⟩, as, []⟩ :: frames, root, false, []⟩ _ _ rfl rfl (by simp)
  refine foldlM_cons_eq_ok.2 ⟨_, take_startTag htag rfl, foldlM_append_eq_ok.2 ⟨_, hinner, ?_⟩⟩
  refine foldlM_cons_eq_ok.2 ⟨_, take_endTag rfl rfl rfl, congrArg Except.ok ?_⟩
  -- whether the content ended in text no longer matters once the element is added
  cases frames <;> simp [add, Frame.node]

theorem element {name : String} {as : List Attribute} (htag : PlainTag name as) (hin : Adds entities us children)
    (h : Adds entities ts ns) :
    Adds entities (.start ⟨"", name⟩ (as.map Attribute.raw) .opened :: (us ++ .stop ⟨"", name⟩ :: ts))
      (.element name as children :: ns) := by
  intro p f fs hf hp _
  obtain ⟨joining, hrest⟩ := h { p with
    frames := f.add (.element name as children) :: fs, joining := false } _ _ rfl hp (by simp)
  have hfirst := hin.foldlM_element (p := p) htag hp
  simp only [add, hf] at hfirst
  refine ⟨joining, ?_⟩
  rw [List.append_cons, ← List.cons_append]
  refine foldlM_append_eq_ok.2 ⟨_, hfirst, hrest.trans ?_⟩
  simp [Frame.add]

end Adds

end Progress

open Progress (Adds)

theorem Written.exists_tokens {ns : List Node} {cs : List Char} (h : Written ns cs) (entities : List Entity) :
    ∃ ts, Lexes cs ts ∧ Adds entities ts ns := by
  induction h with
  | nil => exact ⟨[], .nil, .nil⟩
  | text hne hc hsep h ih =>
      obtain ⟨ts, hlex, hadd⟩ := ih
      exact ⟨_, hlex.text hne hc (h.head hsep), hadd.text hne hc hsep⟩
  | element htag hin h ihin ih =>
      obtain ⟨us, hinlex, hinadd⟩ := ihin
      obtain ⟨ts, hlex, hadd⟩ := ih
      exact ⟨_, .element htag hinlex hlex, .element htag hinadd hadd⟩

/-- A document is read as its root element, if the root is written in plain characters and nothing but spaces, comments
and instructions follow it. -/
theorem parse_written {allowDoctype : Bool} {text : String} {entities : List Entity} {name : String}
    {as : List Attribute} {children : List Node} {inner rest : List Char} (htag : PlainTag name as)
    (hin : Written children inner) (hrest : misc? rest = some [])
    (hopen : opening? allowDoctype text = some (entities, startTag name as ++ (inner ++ (endTag name ++ rest)))) :
    parse allowDoctype text = .ok ⟨name, as, children⟩ := by
  obtain ⟨ts, hlex, hadd⟩ := hin.exists_tokens entities
  have htokens : tokens 0 (startTag name as ++ (inner ++ (endTag name ++ rest))) =
      (.start ⟨"", name⟩ (as.map Attribute.raw) .opened :: (ts ++ [.stop ⟨"", name⟩]), rest) := by
    have hinner : tokens 1 (inner ++ (endTag name ++ rest)) =
      (ts ++ (tokens 1 (endTag name ++ rest)).1, (tokens 1 (endTag name ++ rest)).2) := hlex 0 _
    rw [tokens_startTag htag, hinner, tokens_lastTag htag.name]
  exact parse_eq_ok.2 ⟨entities, _, _, _, _, _, rest, _, hopen, htokens, hadd.foldlM_element htag rfl, hrest, rfl⟩

namespace Element

def node (e : Element) : Node := .element e.name e.attributes e.children

def around (e : Element) (inner : List Char) : List Char := startTag e.name e.attributes ++ (inner ++ endTag e.name)

/-- An element in plain characters, and how it is written. -/
def IsWritten (e : Element) (cs : List Char) : Prop :=
  PlainTag e.name e.attributes ∧ ∃ inner, Written e.children inner ∧ cs = e.around inner

end Element

def lines (indent last : List Char) (es : List Element) : List Node :=
  es.flatMap (fun e => [.text (String.ofList ('\n' :: indent)), e.node]) ++ [.text (String.ofList ('\n' :: last))]

def lineTexts (indent last : List Char) (texts : List (List Char)) : List Char :=
  '\n' :: (texts.flatMap (fun cs => indent ++ cs ++ ['\n']) ++ last)

theorem elements_lines (indent last : List Char) (es : List Element) :
    (lines indent last es).filterMap Node.element? = es := by
  induction es with
  | nil => rfl
  | cons e es ih =>
      rw [lines, List.flatMap_cons, List.append_assoc, List.filterMap_append, ← lines, ih]
      rfl

theorem Element.IsWritten.cons {e : Element} {cs : List Char} (he : e.IsWritten cs) {ns : List Node} {rest : List Char}
    (h : Written ns rest) : Written (e.node :: ns) (cs ++ rest) := by
  obtain ⟨htag, inner, hin, rfl⟩ := he
  simpa [node, around] using Written.element htag hin h

theorem written_lines {indent last : List Char} (hindent : PlainText ('\n' :: indent))
    (hlast : PlainText ('\n' :: last)) {es : List Element} {texts : List (List Char)}
    (h : List.Forall₂ Element.IsWritten es texts) :
    Written (lines indent last es) (lineTexts indent last texts) := by
  have hline {cs : List Char} (hcs : PlainText ('\n' :: cs)) :
      (String.ofList ('\n' :: cs)).toList ≠ [] ∧ PlainText (String.ofList ('\n' :: cs)).toList := by
    rw [String.toList_ofList]
    exact ⟨List.cons_ne_nil _ _, hcs⟩
  induction h with
  | nil =>
      have := Written.text (hline hlast).1 (hline hlast).2 (by simp) .nil
      simpa [lines, lineTexts] using this
  | @cons e cs es texts he _ ih =>
      have := Written.text (hline hindent).1 (hline hindent).2 (by simp [Element.node]) (he.cons ih)
      simpa [lines, lineTexts] using this

theorem misc?_startTag {name : String} {as : List Attribute} (htag : PlainTag name as) (rest : List Char) :
    misc? ('\n' :: (startTag name as ++ rest)) = some (startTag name as ++ rest) := by
  obtain ⟨c, cs, hname, hc⟩ := isPlainName_cons htag.name
  have hskip : skipSpaces ('\n' :: (startTag name as ++ rest)) = startTag name as ++ rest := rfl
  have hbang : c ≠ '!' := ne_of_class hc (by decide)
  have hquery : c ≠ '?' := ne_of_class hc (by decide)
  rw [misc?, if_neg]
  · exact congrArg some hskip
  · rw [hskip]
    simp [startTag, hname, hbang.symm, hquery.symm]

end Bisection.Xml
