import Mathlib
import Bisection.Xml.Document

namespace Bisection.Xml

def isPlain (c : Char) : Bool := isChar c && c != '<' && c != '&' && c != '\r'

def isPlainValue (c : Char) : Bool := isPlain c && c != '"' && c != '\n' && c != '\t'

theorem isChar_of_isPlain {c : Char} (h : isPlain c = true) : isChar c = true := by
  simp only [isPlain, Bool.and_eq_true] at h
  exact h.1.1.1

theorem all_isPlain_iff {s : List Char} :
    s.all isPlain = true ↔ s.all isChar = true ∧ '<' ∉ s ∧ '&' ∉ s ∧ '\r' ∉ s := by
  induction s with
  | nil => simp
  | cons c s ih =>
      simp only [List.all_cons, Bool.and_eq_true, ih, isPlain, bne_iff_ne, List.mem_cons, not_or]
      tauto

theorem isPlain_of_isPlainValue {c : Char} (h : isPlainValue c = true) : isPlain c = true := by
  simp only [isPlainValue, Bool.and_eq_true] at h
  exact h.1.1.1

theorem ne_of_class {p : Char → Bool} {c d : Char} (hc : p c = true) (hd : p d = false) : c ≠ d := by
  rintro rfl
  exact Bool.false_ne_true (hd.symm.trans hc)

theorem ne_of_mem {p : Char → Bool} {cs : List Char} (h : cs.all p = true) {c d : Char} (hc : c ∈ cs)
    (hd : p d = false) : c ≠ d := ne_of_class (List.all_eq_true.1 h c hc) hd

def isPlainName (name : String) : Bool :=
  name.toList.head?.any isNameStart && name.toList.all fun c => isNameChar c && c != ':'

namespace Attribute

structure Plain (a : Attribute) : Prop where
  space : a.space = .none
  name : isPlainName a.name = true
  undeclared : a.name ≠ "xmlns"
  value : a.value.toList.all isPlainValue = true

def raw (a : Attribute) : RawAttribute := ⟨⟨"", a.name⟩, a.value.toList⟩

def written (a : Attribute) : List Char := ' ' :: (a.name.toList ++ '=' :: '"' :: (a.value.toList ++ ['"']))

end Attribute

structure PlainTag (name : String) (as : List Attribute) : Prop where
  name : isPlainName name = true
  plain : ∀ a ∈ as, a.Plain
  distinct : as.Pairwise fun a b => a.name ≠ b.name

def startTag (name : String) (as : List Attribute) : List Char :=
  '<' :: (name.toList ++ (as.flatMap Attribute.written ++ ['>']))

def endTag (name : String) : List Char := '<' :: '/' :: (name.toList ++ ['>'])

theorem isPlainName_cons {name : String} (h : isPlainName name = true) :
    ∃ c cs, name.toList = c :: cs ∧ isNameStart c = true := by
  cases hname : name.toList with
  | nil => simp [isPlainName, hname] at h
  | cons c cs =>
      simp only [isPlainName, hname, Bool.and_eq_true, List.head?_cons, Option.any_some] at h
      exact ⟨c, cs, rfl, h.1⟩

theorem not_isSpace_of_isNameChar {c : Char} (h : isNameChar c = true) : isSpace c = false := by
  have hother {d : Char} := ne_of_class (d := d) h
  simp [isSpace, hother (d := ' ') (by decide), hother (d := '\t') (by decide), hother (d := '\n') (by decide),
    hother (d := '\r') (by decide)]

theorem isNameChar_of_isNameStart {c : Char} (h : isNameStart c = true) : isNameChar c = true := by
  simp [isNameChar, h]

theorem takeWhile_append_cons {p : Char → Bool} {run : List Char} {c : Char} (hrun : ∀ d ∈ run, p d = true)
    (hc : p c = false) (rest : List Char) : (run ++ c :: rest).takeWhile p = run := by
  rw [List.takeWhile_append_of_pos hrun, List.takeWhile_cons_of_neg (by simp [hc]), List.append_nil]

theorem dropWhile_append_cons {p : Char → Bool} {run : List Char} {c : Char} (hrun : ∀ d ∈ run, p d = true)
    (hc : p c = false) (rest : List Char) : (run ++ c :: rest).dropWhile p = c :: rest := by
  rw [List.dropWhile_append_of_pos hrun, List.dropWhile_cons_of_neg (by simp [hc])]

theorem qname?_name {name : String} (h : isPlainName name = true) {c : Char} (hc : isNameChar c = false)
    (rest : List Char) : qname? (name.toList ++ c :: rest) = some (⟨"", name⟩, c :: rest) := by
  simp only [isPlainName, Bool.and_eq_true, List.all_eq_true, bne_iff_ne] at h
  obtain ⟨hstart, hall⟩ := h
  have hrun : ∀ d ∈ name.toList, isNameChar d = true := fun d hd => (hall d hd).1
  have hcolon : name.toList.dropWhile (· != ':') = [] := by
    rw [List.dropWhile_eq_nil_iff]
    exact fun d hd => bne_iff_ne.2 (hall d hd).2
  have hmem : name.toList.contains ':' = false := by
    rw [List.contains_eq_mem, decide_eq_false_iff_not]
    exact fun hm => (hall _ hm).2 rfl
  rw [qname?, takeWhile_append_cons hrun hc, dropWhile_append_cons hrun hc, hcolon]
  simp only [hmem, hstart]
  simp

theorem value?_plain {v : List Char} (h : v.all isPlainValue = true) (rest : List Char) :
    value? '"' (v ++ '"' :: rest) = some (v, rest) := by
  have hrun : ∀ c ∈ v, (c != '"' && c != '<') = true := by
    intro c hc
    rw [Bool.and_eq_true, bne_iff_ne, bne_iff_ne]
    exact ⟨ne_of_mem h hc rfl, ne_of_mem h hc rfl⟩
  have hchars : v.all isChar = true := by
    rw [List.all_eq_true] at h ⊢
    exact fun c hc => isChar_of_isPlain (isPlain_of_isPlainValue (h c hc))
  rw [value?, takeWhile_append_cons hrun rfl, dropWhile_append_cons hrun rfl]
  simp [hchars]

namespace Attribute.Plain

variable {a : Attribute}

theorem attribute?_append (h : a.Plain) (rest : List Char) :
    attribute? (a.name.toList ++ '=' :: '"' :: (a.value.toList ++ '"' :: rest)) = some (a.raw, rest) := by
  have hequals (cs : List Char) : skipSpaces ('=' :: cs) = '=' :: cs := rfl
  have hquote (cs : List Char) : skipSpaces ('"' :: cs) = '"' :: cs := rfl
  rw [attribute?, qname?_name h.name (by decide)]
  simp only [hequals, hquote]
  rw [value?_plain h.value]
  rfl

theorem attributes?_append (h : a.Plain) (rest : List Char) : attributes? (a.written ++ rest) =
    (attributes? rest).map fun (as, ending, rest) => (a.raw :: as, ending, rest) := by
  obtain ⟨c, cs, hname, hc⟩ := isPlainName_cons h.name
  have hspace : isSpace c = false := not_isSpace_of_isNameChar (isNameChar_of_isNameStart hc)
  have hskip : skipSpaces (a.written ++ rest) = a.name.toList ++ '=' :: '"' :: (a.value.toList ++ '"' :: rest) := by
    simp [Attribute.written, skipSpaces, hname, hspace, show isSpace ' ' = true from rfl]
  have hread := h.attribute?_append rest
  rw [← hskip] at hread
  rw [hname] at hskip
  rw [attributes?]
  split
  · rename_i hr
    rw [hskip] at hr
    exact absurd (List.cons.inj hr).1 (ne_of_class hc (by decide))
  · rename_i hr
    rw [hskip] at hr
    exact absurd (List.cons.inj hr).1 (ne_of_class hc (by decide))
  · rw [if_neg (by simp [written]), if_pos (by simp [written, isSpace])]
    split
    · rename_i hnone
      rw [hread] at hnone
      cases hnone
    · rename_i hsome
      rw [hread] at hsome
      cases hsome
      rfl

end Attribute.Plain

theorem attributes?_written {as : List Attribute} (h : ∀ a ∈ as, a.Plain) (rest : List Char) :
    attributes? (as.flatMap Attribute.written ++ '>' :: rest) = some (as.map Attribute.raw, .opened, rest) := by
  induction as with
  | nil =>
      rw [List.flatMap_nil, List.nil_append, attributes?]
      rfl
  | cons a as ih =>
      rw [List.flatMap_cons, List.append_assoc, (h a List.mem_cons_self).attributes?_append,
        ih fun b hb => h b (List.mem_cons_of_mem a hb)]
      rfl

theorem breakAt?_of_not_mem {c : Char} {lit cs : List Char} (h : c ∉ cs) : breakAt? (c :: lit) cs = none := by
  induction cs with
  | nil => rfl
  | cons d cs ih =>
      obtain ⟨hd, hcs⟩ := not_or.1 (mt List.mem_cons.2 h)
      have hafter : after? (c :: lit) (d :: cs) = none := by simp [after?, hd]
      rw [breakAt?, hafter, ih hcs]
      rfl

/-- Text that stands for itself: also the mark that ends a section must not occur in it. -/
structure PlainText (s : List Char) : Prop where
  plain : s.all isPlain = true
  unmarked : hasInfix [']', ']', '>'] s = false

theorem plainText_of_not_mem {s : List Char} (h : s.all isPlain = true) (hmark : ']' ∉ s) : PlainText s := by
  refine ⟨h, ?_⟩
  rw [hasInfix, breakAt?_of_not_mem hmark]
  rfl

namespace Token

theorem next?_startTag {name : String} {as : List Attribute} (h : PlainTag name as) (rest : List Char) :
    next? (startTag name as ++ rest) = some (.start ⟨"", name⟩ (as.map Attribute.raw) .opened, rest) := by
  have hread := attributes?_written h.plain rest
  obtain ⟨d, ds, htail, hd⟩ : ∃ d ds, as.flatMap Attribute.written ++ '>' :: rest = d :: ds ∧ isNameChar d = false := by
    cases as with
    | nil => exact ⟨_, _, rfl, by decide⟩
    | cons a as => exact ⟨_, _, rfl, by decide⟩
  have htag : startTag name as ++ rest = '<' :: (name.toList ++ d :: ds) := by
    rw [← htail]
    simp [startTag]
  have hname {c : Char} {cs : List Char} (hc : isNameStart c = false) : name.toList ++ d :: ds ≠ c :: cs := by
    obtain ⟨e, es, he, hstart⟩ := isPlainName_cons h.name
    rw [he]
    exact fun heq => ne_of_class hstart hc (List.cons.inj heq).1
  rw [htag, next?.eq_5 _ (fun _ => hname (by decide)) (fun _ => hname (by decide)) (fun _ => hname (by decide))
    (fun _ => hname (by decide)), qname?_name h.name hd, ← htail]
  simp only [hread]
  rfl

theorem next?_endTag {name : String} (h : isPlainName name = true) (rest : List Char) :
    next? (endTag name ++ rest) = some (.stop ⟨"", name⟩, rest) := by
  have hskip : skipSpaces ('>' :: rest) = '>' :: rest := rfl
  have htag : endTag name ++ rest = '<' :: '/' :: (name.toList ++ '>' :: rest) := by simp [endTag]
  rw [htag, next?, qname?_name h (by decide)]
  simp only [hskip]

theorem next?_text {s : List Char} (hne : s ≠ []) (hs : PlainText s) (rest : List Char) :
    next? (s ++ '<' :: rest) = some (.text s, '<' :: rest) := by
  obtain ⟨h, hinfix⟩ := hs
  obtain ⟨c, cs, rfl⟩ := List.exists_cons_of_ne_nil hne
  have hc : c ≠ '<' := ne_of_mem h List.mem_cons_self rfl
  have hrun : ∀ d ∈ cs, (d != '<') = true := fun d hd => bne_iff_ne.2 (ne_of_mem h (List.mem_cons_of_mem c hd) rfl)
  have hchars : (c :: cs).all isChar = true := by
    rw [List.all_eq_true] at h ⊢
    exact fun d hd => isChar_of_isPlain (h d hd)
  rw [List.cons_append, next?.eq_7 _ _ (fun _ h => absurd h hc) (fun _ h => absurd h hc) (fun _ h => absurd h hc)
    (fun _ h => absurd h hc) hc, takeWhile_append_cons hrun rfl, dropWhile_append_cons hrun rfl, hchars, hinfix]
  rfl

end Token

theorem tokens_of_next? {cs rest : List Char} {t : Token} (h : Token.next? cs = some (t, rest)) {level : ℕ} :
    tokens level cs = if t.level level = 0 then ([t], rest)
      else (t :: (tokens (t.level level) rest).1, (tokens (t.level level) rest).2) := by
  have hne : ¬cs.isEmpty = true := by
    rw [List.isEmpty_iff]
    rintro rfl
    cases h
  rw [tokens, if_neg hne]
  split
  · rename_i hnone
    rw [h] at hnone
    cases hnone
  · rename_i hsome
    rw [h] at hsome
    cases hsome
    rfl

theorem tokens_startTag {name : String} {as : List Attribute} (h : PlainTag name as) (level : ℕ) (rest : List Char) :
    tokens level (startTag name as ++ rest) = (.start ⟨"", name⟩ (as.map Attribute.raw) .opened ::
      (tokens (level + 1) rest).1, (tokens (level + 1) rest).2) := by
  rw [tokens_of_next? (Token.next?_startTag h rest)]
  exact if_neg level.succ_ne_zero

theorem tokens_endTag {name : String} (h : isPlainName name = true) (level : ℕ) (rest : List Char) :
    tokens (level + 2) (endTag name ++ rest) =
      (.stop ⟨"", name⟩ :: (tokens (level + 1) rest).1, (tokens (level + 1) rest).2) := by
  rw [tokens_of_next? (Token.next?_endTag h rest)]
  exact if_neg level.succ_ne_zero

theorem tokens_lastTag {name : String} (h : isPlainName name = true) (rest : List Char) :
    tokens 1 (endTag name ++ rest) = ([.stop ⟨"", name⟩], rest) := by
  rw [tokens_of_next? (Token.next?_endTag h rest)]
  exact if_pos rfl

theorem tokens_text {s : List Char} (hne : s ≠ []) (h : PlainText s) (level : ℕ) (rest : List Char) :
    tokens (level + 1) (s ++ '<' :: rest) =
      (.text s :: (tokens (level + 1) ('<' :: rest)).1, (tokens (level + 1) ('<' :: rest)).2) := by
  rw [tokens_of_next? (Token.next?_text hne h rest)]
  exact if_neg level.succ_ne_zero

/-- Inside an element, the characters divide into the tokens, whatever tag follows. -/
def Lexes (cs : List Char) (ts : List Token) : Prop :=
  ∀ (level : ℕ) (rest : List Char), tokens (level + 1) (cs ++ '<' :: rest) =
    (ts ++ (tokens (level + 1) ('<' :: rest)).1, (tokens (level + 1) ('<' :: rest)).2)

namespace Lexes

variable {cs inner s : List Char} {ts us : List Token}

theorem nil : Lexes [] [] := fun _ _ => rfl

theorem text (hne : s ≠ []) (hs : PlainText s) (hcs : ∀ c ∈ cs.head?, c = '<') (h : Lexes cs ts) :
    Lexes (s ++ cs) (.text s :: ts) := by
  intro level rest
  -- a text goes on to the next tag, so what follows it has to begin with one
  obtain ⟨r, hr⟩ : ∃ r, cs ++ '<' :: rest = '<' :: r := by
    cases cs with
    | nil => exact ⟨rest, rfl⟩
    | cons c cs => exact ⟨_, by rw [hcs c rfl]; rfl⟩
  have hrest := h level rest
  rw [hr] at hrest
  rw [List.append_assoc, hr, tokens_text hne hs, hrest]
  rfl

theorem element {name : String} {as : List Attribute} (htag : PlainTag name as) (hin : Lexes inner us)
    (h : Lexes cs ts) : Lexes (startTag name as ++ (inner ++ (endTag name ++ cs)))
      (.start ⟨"", name⟩ (as.map Attribute.raw) .opened :: (us ++ .stop ⟨"", name⟩ :: ts)) := by
  intro level rest
  have hinner : tokens (level + 2) (inner ++ (endTag name ++ (cs ++ '<' :: rest))) =
      (us ++ (tokens (level + 2) (endTag name ++ (cs ++ '<' :: rest))).1,
        (tokens (level + 2) (endTag name ++ (cs ++ '<' :: rest))).2) := hin (level + 1) _
  simp only [List.append_assoc]
  rw [tokens_startTag htag, hinner, tokens_endTag htag.name, h]
  simp

end Lexes

/-- Nodes in plain characters, no text being empty or next to another, and how they are written. -/
inductive Written : List Node → List Char → Prop
  | nil : Written [] []
  | text {content : String} {ns : List Node} {cs : List Char} (hne : content.toList ≠ [])
      (hc : PlainText content.toList) (hsep : ∀ s, ns.head? ≠ some (.text s)) (h : Written ns cs) :
      Written (.text content :: ns) (content.toList ++ cs)
  | element {name : String} {as : List Attribute} {children ns : List Node} {inner cs : List Char}
      (htag : PlainTag name as) (hin : Written children inner) (h : Written ns cs) :
      Written (.element name as children :: ns) (startTag name as ++ (inner ++ (endTag name ++ cs)))

theorem Written.head {ns : List Node} {cs : List Char} (h : Written ns cs) (hns : ∀ s, ns.head? ≠ some (.text s)) :
    ∀ c ∈ cs.head?, c = '<' := by
  cases h with
  | nil => exact fun c hc => by cases hc
  | text => exact absurd rfl (hns _)
  | element => exact fun c hc => (Option.some.inj hc).symm

end Bisection.Xml
