import Mathlib
import Bisection.Proofs.AreaReading
import Bisection.Proofs.Elements
import Bisection.Proofs.NumberText

namespace Bisection

namespace Xml

def areaDoctype : String := "<!DOCTYPE arealist SYSTEM \"areas.dtd\">\n"

theorem opening?_areaDoctype {name : String} {as : List Attribute} (htag : PlainTag name as) (rest : List Char) :
    opening? true (String.ofList (areaDoctype.toList ++ (startTag name as ++ rest))) =
      some ([], startTag name as ++ rest) := by
  have hbefore (cs : List Char) : misc? ("<!DOCTYPE".toList ++ cs) = some ("<!DOCTYPE".toList ++ cs) := by
    rw [misc?]
    rfl
  have hdeclaration (cs : List Char) :
      declaration (skipMark ("<!DOCTYPE".toList ++ cs)) = some ("<!DOCTYPE".toList ++ cs) := rfl
  have hafter (cs : List Char) : after? "<!DOCTYPE".toList ("<!DOCTYPE".toList ++ cs) = some cs := rfl
  have hdoctype : doctype? (" arealist SYSTEM \"areas.dtd\">\n".toList ++ (startTag name as ++ rest)) =
      some ([], '\n' :: (startTag name as ++ rest)) := rfl
  have hsplit : areaDoctype.toList = "<!DOCTYPE".toList ++ " arealist SYSTEM \"areas.dtd\">\n".toList := rfl
  rw [opening?, String.toList_ofList, hsplit, List.append_assoc, hdeclaration]
  simp only [Option.bind_eq_bind, Option.bind_some, prolog?, hbefore, hafter, hdoctype, misc?_startTag htag]
  rfl

theorem Element.IsWritten.parse_document {e : Element} {cs : List Char} (h : e.IsWritten cs) :
    parse true (String.ofList (areaDoctype.toList ++ (cs ++ ['\n']))) = .ok e := by
  obtain ⟨htag, inner, hin, rfl⟩ := h
  have hend : misc? ['\n'] = some [] := by
    rw [misc?]
    rfl
  rw [around, List.append_assoc, List.append_assoc]
  exact parse_written htag hin hend (opening?_areaDoctype htag _)

end Xml

theorem Text.trim_eq_self {cs : List Char} (h : ∀ c ∈ cs, isBlank c = false) : trim cs = cs := by
  have hdrop {cs : List Char} (h : ∀ c ∈ cs, isBlank c = false) : cs.dropWhile isBlank = cs := by
    cases cs with
    | nil => rfl
    | cons c cs => rw [List.dropWhile_cons_of_neg (by simp [h c])]
  rw [trim, hdrop h, hdrop (by simpa using h), List.reverse_reverse]

namespace IsNumeric

variable {c : Char}

theorem isPlainValue (h : IsNumeric c) : Xml.isPlainValue c = true := by
  obtain ⟨hlow, hhigh⟩ := h.toNat_range
  have hne {d : Char} (hd : d.toNat < 45 ∨ 57 < d.toNat) : (c != d) = true := by
    rw [bne_iff_ne]
    rintro rfl
    omega
  have hchar : Xml.isChar c = true := by
    rw [Xml.isChar, if_neg (by omega)]
    simp only [Bool.and_eq_true, bne_iff_ne]
    omega
  simp [Xml.isPlainValue, Xml.isPlain, hchar, hne]

theorem isPlain (h : IsNumeric c) : Xml.isPlain c = true := Xml.isPlain_of_isPlainValue h.isPlainValue

theorem not_isBlank (h : IsNumeric c) : Text.isBlank c = false := by
  obtain ⟨hlow, hhigh⟩ := h.toNat_range
  simp [Text.isBlank]
  omega

end IsNumeric

theorem plainText_of_isNumeric {s : List Char} (h : ∀ c ∈ s, IsNumeric c) : Xml.PlainText s := by
  refine Xml.plainText_of_not_mem (List.all_eq_true.2 fun c hc => (h c hc).isPlain) fun hmark => ?_
  have := (h _ hmark).toNat_range
  simp at this

namespace Document

open Xml

/-- An area with finite bounds in every dimension and a label that can be written as it is. -/
structure Writable (dimensions : ℕ) (a : Area) : Prop where
  low : a.bounds.low.length = dimensions
  high : a.bounds.high.length = dimensions
  finite_low : ∀ v ∈ a.bounds.low, v.isFinite = true
  finite_high : ∀ v ∈ a.bounds.high, v.isFinite = true
  plain : PlainText a.label.toList
  trimmed : trimmed a.label = a.label.toList

def boundElement (b : Bound) (v : Float) (d : ℕ) : Element :=
  ⟨b.tag, [⟨.none, "dimension", toString d⟩], [.text (numberText v)]⟩

def boundElements (b : Bound) (values : Point) : List Element :=
  values.zipIdx.map fun (v, d) => boundElement b v d

def labelElement (label : String) : Element := ⟨"prefix", [], if label = "" then [] else [.text label]⟩

def areaElement (a : Area) : Element :=
  ⟨"area", [], lines ['\t', '\t'] ['\t']
    (boundElements .low a.bounds.low ++ (boundElements .high a.bounds.high ++ [labelElement a.label]))⟩

def listElement (l : AreaList) : Element :=
  ⟨"arealist", [⟨.none, "dimensions", toString l.dimensions⟩], lines ['\t'] [] (l.areas.map areaElement)⟩

section Writing

def boundTexts (b : Bound) (values : Point) : List (List Char) :=
  values.zipIdx.map fun (v, d) => (boundElement b v d).around (numberText v).toList

def labelText (label : String) : List Char := (labelElement label).around label.toList

def areaText (a : Area) : List Char :=
  let texts := boundTexts .low a.bounds.low ++ (boundTexts .high a.bounds.high ++ [labelText a.label])
  (areaElement a).around (lineTexts ['\t', '\t'] ['\t'] texts)

def listText (l : AreaList) : List Char := (listElement l).around (lineTexts ['\t'] [] (l.areas.map areaText))

theorem plainTag_count (name key : String) (n : ℕ) (hname : isPlainName name = true) (hkey : isPlainName key = true)
    (hne : key ≠ "xmlns") : PlainTag name [⟨.none, key, toString n⟩] where
  name := hname
  plain := by
    intro a ha
    rw [List.mem_singleton.1 ha]
    exact ⟨rfl, hkey, hne, List.all_eq_true.2 fun c hc => (isNumeric_toString c hc).isPlainValue⟩
  distinct := List.pairwise_singleton _ _

theorem plainTag_nil (name : String) (h : isPlainName name = true) : PlainTag name [] := ⟨h, by simp, .nil⟩

theorem written_text {content : String} (hne : content.toList ≠ []) (h : PlainText content.toList) :
    Written [.text content] content.toList := by
  simpa using Written.text hne h (by simp) .nil

theorem boundElements_written (b : Bound) {values : Point} (h : ∀ v ∈ values, v.isFinite = true) :
    List.Forall₂ Element.IsWritten (boundElements b values) (boundTexts b values) := by
  rw [boundElements, boundTexts, List.forall₂_map_left_iff, List.forall₂_map_right_iff, List.forall₂_same]
  rintro ⟨v, d⟩ hv
  have hfin := h v (List.fst_mem_of_mem_zipIdx hv)
  have htag : isPlainName b.tag = true := by cases b <;> decide
  refine ⟨plainTag_count b.tag "dimension" d htag (by decide) (by decide), _, ?_, rfl⟩
  exact written_text (numberText_ne_nil hfin) (plainText_of_isNumeric (isNumeric_numberText hfin))

theorem labelElement_written {label : String} (h : PlainText label.toList) :
    (labelElement label).IsWritten (labelText label) := by
  refine ⟨plainTag_nil "prefix" (by decide), _, ?_, rfl⟩
  by_cases hempty : label = ""
  · rw [labelElement, if_pos hempty, hempty]
    exact .nil
  · rw [labelElement, if_neg hempty]
    exact written_text (by simpa using hempty) h

theorem areaElement_written {dimensions : ℕ} {a : Area} (h : Writable dimensions a) :
    (areaElement a).IsWritten (areaText a) := by
  refine ⟨plainTag_nil "area" (by decide), _, written_lines ⟨by decide, by decide⟩ ⟨by decide, by decide⟩ ?_, rfl⟩
  have hlow := boundElements_written .low h.finite_low
  have hhigh := boundElements_written .high h.finite_high
  exact List.rel_append hlow (List.rel_append hhigh (.cons (labelElement_written h.plain) .nil))

theorem listElement_written {l : AreaList} (h : ∀ a ∈ l.areas, Writable l.dimensions a) :
    (listElement l).IsWritten (listText l) := by
  refine ⟨plainTag_count "arealist" "dimensions" l.dimensions (by decide) (by decide) (by decide), _,
    written_lines ⟨by decide, by decide⟩ ⟨by decide, by decide⟩ ?_, rfl⟩
  rw [List.forall₂_map_left_iff, List.forall₂_map_right_iff, List.forall₂_same]
  exact fun a ha => areaElement_written (h a ha)

theorem toList_writeBounds (b : Bound) (values : Point) : (writeBounds b values).toList =
    (boundTexts b values).flatMap fun cs => ['\t', '\t'] ++ cs ++ ['\n'] := by
  rw [writeBounds, boundTexts, String.toList_join, List.flatMap_map, List.flatMap_map]
  refine congrArg (List.flatMap · _) (funext fun (v, d) => ?_)
  simp [toString, boundElement, Element.around, startTag, endTag, Attribute.written]

theorem toList_writeArea (a : Area) : (writeArea a).toList = ['\t'] ++ areaText a ++ ['\n'] := by
  simp [toString, writeArea, toList_writeBounds, areaText, lineTexts, areaElement, labelText, labelElement,
    Element.around, startTag, endTag]

theorem toList_writeAreas (l : AreaList) :
    (writeAreas l).toList = areaDoctype.toList ++ (listText l ++ ['\n']) := by
  have hareas : (String.join (l.areas.map writeArea)).toList =
      (l.areas.map areaText).flatMap fun cs => ['\t'] ++ cs ++ ['\n'] := by
    rw [String.toList_join, List.flatMap_map, List.flatMap_map]
    exact congrArg (List.flatMap · l.areas) (funext toList_writeArea)
  -- stated by `rfl`, as unfolding would evaluate the long literal
  have hwrite : writeAreas l = areaDoctype ++ s!"<arealist dimensions=\"{l.dimensions}\">\n" ++
      String.join (l.areas.map writeArea) ++ "</arealist>\n" := rfl
  rw [hwrite]
  simp [toString, hareas, listText, lineTexts, listElement, Element.around, startTag, endTag, Attribute.written]

theorem parse_writeAreas {l : AreaList} (h : ∀ a ∈ l.areas, Writable l.dimensions a) :
    parse true (writeAreas l) = .ok (listElement l) := by
  have hparse := (listElement_written h).parse_document
  rw [← toList_writeAreas, String.ofList_toList] at hparse
  rw [parse, hparse]

end Writing

section Reading

variable {N : ℕ} {a : Area} {b : Bound} {c : Element} {d : ℕ} {v : Float}

theorem trimmed_numeric {s : String} (h : ∀ c ∈ s.toList, IsNumeric c) : trimmed s = s.toList :=
  Text.trim_eq_self fun c hc => (h c hc).not_isBlank

theorem readNatural?_toString {n : ℕ} (h : n < UInt64.size) : readNatural? (trimmed (toString n)) = some n := by
  rw [trimmed_numeric isNumeric_toString, Nat.toString_eq_ofList_toDigits, String.toList_ofList,
    readNatural?_toDigits h]

theorem dimension?_boundElement (b : Bound) (v : Float) (hd : d < UInt64.size) :
    dimension? (boundElement b v d) = some d := readNatural?_toString hd

theorem role?_boundElement (b : Bound) (v : Float) (hd : d < UInt64.size) :
    role? (boundElement b v d) = some (.bound b (some d)) :=
  role?_eq_bound.2 ⟨rfl, dimension?_boundElement b v hd⟩

theorem readFloat?_boundElement (b : Bound) (d : ℕ) (hv : v.isFinite = true) :
    readFloat? (trimmed (boundElement b v d).leadingText) = some v := by
  have htext : trimmed (boundElement b v d).leadingText = (numberText v).toList :=
    trimmed_numeric (isNumeric_numberText hv)
  rw [htext, readFloat?_numberText hv]

theorem role?_labelElement (label : String) : role? (labelElement label) = some .label := role?_eq_label.2 rfl

theorem leadingText_labelElement (label : String) : (labelElement label).leadingText = label := by
  by_cases hempty : label = ""
  · simp [labelElement, Element.leadingText, hempty]
  · simp [labelElement, Element.leadingText, hempty]

theorem mem_boundElements {values : Point} :
    c ∈ boundElements b values ↔ ∃ d v, values[d]? = some v ∧ c = boundElement b v d := by
  rw [boundElements, List.mem_map]
  constructor
  · rintro ⟨⟨v, d⟩, hv, rfl⟩
    exact ⟨d, v, List.mem_zipIdx_iff_getElem?.1 hv, rfl⟩
  · rintro ⟨d, v, hv, rfl⟩
    exact ⟨(v, d), List.mem_zipIdx_iff_getElem?.2 hv, rfl⟩

theorem mem_elements_areaElement : c ∈ (areaElement a).elements ↔
    (∃ (b : Bound) (d : ℕ) (v : Float), (b.values a.bounds)[d]? = some v ∧ c = boundElement b v d) ∨
      c = labelElement a.label := by
  rw [Element.elements, areaElement, elements_lines]
  simp only [List.mem_append, List.mem_singleton, mem_boundElements]
  constructor
  · rintro (hlow | hhigh | hlabel)
    · exact Or.inl ⟨.low, hlow⟩
    · exact Or.inl ⟨.high, hhigh⟩
    · exact Or.inr hlabel
  · rintro (⟨_ | _, hbound⟩ | hlabel)
    · exact Or.inl hbound
    · exact Or.inr (Or.inl hbound)
    · exact Or.inr (Or.inr hlabel)

namespace Writable

theorem length_values (h : Writable N a) (b : Bound) : (b.values a.bounds).length = N := by
  cases b with
  | low => exact h.low
  | high => exact h.high

theorem index_lt (h : Writable N a) (hv : (b.values a.bounds)[d]? = some v) : d < N := by
  obtain ⟨hd, -⟩ := List.getElem?_eq_some_iff.1 hv
  rwa [h.length_values] at hd

theorem finite (h : Writable N a) (hv : (b.values a.bounds)[d]? = some v) : v.isFinite = true := by
  cases b with
  | low => exact h.finite_low v (List.mem_of_getElem? hv)
  | high => exact h.finite_high v (List.mem_of_getElem? hv)

theorem proper (h : Writable N a) (hsize : N < UInt64.size) : ∀ c ∈ (areaElement a).elements, Proper N c := by
  intro c hc
  rcases mem_elements_areaElement.1 hc with ⟨b, d, v, hv, rfl⟩ | rfl
  · intro _
    have hd := h.index_lt hv
    exact ⟨⟨d, hd, dimension?_boundElement b v (hd.trans hsize)⟩, v,
      readFloat?_boundElement b d (h.finite hv), h.finite hv⟩
  · rintro ⟨b, hb⟩
    exact absurd hb.symm (tag_ne_labelTag b)

theorem lastBound?_eq (h : Writable N a) (hsize : N < UInt64.size) (hv : (b.values a.bounds)[d]? = some v) :
    lastBound? (areaElement a).elements b d = some v := by
  have hrole {b : Bound} {d : ℕ} {v : Float} (hv : (b.values a.bounds)[d]? = some v) :=
    role?_boundElement b v ((h.index_lt hv).trans hsize)
  obtain ⟨c, hc, hlast⟩ := exists_getLast?_inRole (mem_elements_areaElement.2 (Or.inl ⟨b, d, v, hv, rfl⟩)) (hrole hv)
  rw [lastBound?, hlast]
  obtain ⟨hc, hsame⟩ := mem_inRole.1 hc
  rcases mem_elements_areaElement.1 hc with ⟨b', d', w, hw, rfl⟩ | rfl
  · cases (hrole hw).symm.trans hsame
    cases hv.symm.trans hw
    exact readFloat?_boundElement b d (h.finite hv)
  · cases (role?_labelElement a.label).symm.trans hsame

theorem lastLabel?_eq (h : Writable N a) (hsize : N < UInt64.size) :
    lastLabel? (areaElement a).elements = some a.label := by
  obtain ⟨c, hc, hlast⟩ :=
    exists_getLast?_inRole (mem_elements_areaElement.2 (Or.inr rfl)) (role?_labelElement a.label)
  rw [lastLabel?, hlast]
  obtain ⟨hc, hsame⟩ := mem_inRole.1 hc
  rcases mem_elements_areaElement.1 hc with ⟨b, d, v, hv, rfl⟩ | rfl
  · cases (role?_boundElement b v ((h.index_lt hv).trans hsize)).symm.trans hsame
  · rw [Option.map_some, leadingText_labelElement, h.trimmed, String.ofList_toList]

theorem describes (h : Writable N a) (hsize : N < UInt64.size) : Describes N (areaElement a).elements a := by
  refine ⟨fun b => ?_, h.lastLabel?_eq hsize⟩
  apply List.ext_getElem
  · simp [h.length_values]
  · intro d hd _
    rw [List.length_map] at hd
    rw [List.getElem_map, List.getElem_map, List.getElem_range]
    exact (h.lastBound?_eq hsize (List.getElem?_eq_getElem hd)).symm

end Writable

/-- The elements of a list of areas describe those areas. -/
theorem areasOf_listElement {l : AreaList} (hpos : 0 < l.dimensions) (hsize : l.dimensions < UInt64.size)
    (h : ∀ a ∈ l.areas, Writable l.dimensions a) : areasOf (listElement l) = .ok l := by
  have hdimensions : Document.dimensions (listElement l) = .ok l.dimensions :=
    dimensions_eq_ok.2 ⟨_, rfl, readNatural?_toString hsize, hpos⟩
  have hnamed : (listElement l).childrenNamed "area" = l.areas.map areaElement := by
    rw [Element.childrenNamed, listElement, elements_lines, List.filter_eq_self]
    intro e he
    obtain ⟨a, -, rfl⟩ := List.mem_map.1 he
    rfl
  refine (areasOf_eq_ok hdimensions).2 ⟨rfl, ?_⟩
  rw [hnamed, List.forall₂_map_left_iff, List.forall₂_same]
  intro a ha
  have hdescribes := (h a ha).describes hsize
  exact ⟨hdescribes.described ((h a ha).proper hsize), hdescribes⟩

theorem readAreas_written {l : AreaList} (hpos : 0 < l.dimensions) (hsize : l.dimensions < UInt64.size)
    (h : ∀ a ∈ l.areas, Writable l.dimensions a) : readAreas (writeAreas l) = .ok l :=
  calc readAreas (writeAreas l) = areasOf (listElement l) := readAreas_of_parse (parse_writeAreas h)
    _ = .ok l := areasOf_listElement hpos hsize h

end Reading

/-- An area with finite bounds in every dimension and a label of binary digits. -/
structure Complete (dimensions : ℕ) (a : Area) : Prop where
  low : a.bounds.low.length = dimensions
  high : a.bounds.high.length = dimensions
  finite : ∀ v ∈ a.bounds.low ++ a.bounds.high, v.isFinite = true
  label : ∀ c ∈ a.label.toList, c = '0' ∨ c = '1'

theorem Complete.writable {dimensions : ℕ} {a : Area} (h : Complete dimensions a) : Writable dimensions a := by
  have hlabel : ∀ c ∈ a.label.toList, IsNumeric c := by
    intro c hc
    rcases h.label c hc with rfl | rfl
    · exact .inl rfl
    · exact .inl rfl
  exact {
    low := h.low
    high := h.high
    finite_low := fun v hv => h.finite v (List.mem_append_left _ hv)
    finite_high := fun v hv => h.finite v (List.mem_append_right _ hv)
    plain := plainText_of_isNumeric hlabel
    trimmed := trimmed_numeric hlabel }

/-- A list of complete areas is read back from its document, with every bound down to the last bit. -/
theorem readAreas_writeAreas {l : AreaList} (hpos : 0 < l.dimensions) (hsize : l.dimensions < UInt64.size)
    (h : ∀ a ∈ l.areas, Complete l.dimensions a) : readAreas (writeAreas l) = .ok l :=
  readAreas_written hpos hsize fun a ha => (h a ha).writable

theorem readAreas_writeAreas_plane :
    readAreas (writeAreas
      ⟨2, [⟨⟨[-0.0, 5e-324], [0.0, 1e308]⟩, ""⟩, ⟨⟨[1e308, 0.1], [-1e308, -0.1]⟩, "0110"⟩]⟩) =
      .ok ⟨2, [⟨⟨[-0.0, 5e-324], [0.0, 1e308]⟩, ""⟩, ⟨⟨[1e308, 0.1], [-1e308, -0.1]⟩, "0110"⟩]⟩ := by
  refine readAreas_writeAreas (by decide) (by decide) fun a ha => ?_
  rcases List.mem_pair.1 ha with rfl | rfl
  · exact ⟨rfl, rfl, by decide +kernel, by simp⟩
  · exact ⟨rfl, rfl, by decide +kernel, by simp⟩

end Document

end Bisection
