import Mathlib
import Bisection.Proofs.AreaDocument
import Bisection.Proofs.AreaReading
import Bisection.Proofs.Charges

namespace Bisection

section Trimming

open Text Xml

theorem dropWhile_eq_self_of_stops {p : Char → Bool} {cs : List Char} (h : Stops p cs) : cs.dropWhile p = cs := by
  cases cs with
  | nil => rfl
  | cons c cs => exact List.dropWhile_cons_of_neg (by simp [h c rfl])

theorem Text.trim_front (cs : List Char) : trim cs <+: cs.dropWhile isBlank := by
  have hsuffix := List.dropWhile_suffix (l := (cs.dropWhile isBlank).reverse) isBlank
  simpa [trim] using List.reverse_prefix.2 hsuffix

theorem Text.trim_part (cs : List Char) : trim cs <:+: cs :=
  (trim_front cs).isInfix.trans (List.dropWhile_suffix isBlank).isInfix

theorem Text.trim_trim (cs : List Char) : trim (trim cs) = trim cs := by
  have hstart : Stops isBlank (trim cs) := by
    intro c hc
    obtain ⟨rest, hrest⟩ := trim_front cs
    refine stops_dropWhile isBlank cs c ?_
    rw [← hrest]
    exact List.mem_head?_append_of_mem_head? hc
  have hend : Stops isBlank (trim cs).reverse := by
    rw [trim, List.reverse_reverse]
    exact stops_dropWhile isBlank _
  rw [trim, dropWhile_eq_self_of_stops hstart, dropWhile_eq_self_of_stops hend, List.reverse_reverse]

end Trimming

namespace Xml

section Weights

variable {u : List Char}

def isLight (c : Char) : Bool := c ∉ ['<', '[', '&', ';', '\r', '/']

theorem weight_eq_zero (h : u.all isLight = true) : weight u = 0 := by
  induction u with
  | nil => rfl
  | cons c u ih =>
      rw [List.all_cons, Bool.and_eq_true] at h
      have hcharge : charge c u.head? = 0 := by simp_all [charge, isLight]
      rw [weight, hcharge, ih h.2]

end Weights

end Xml

theorem IsNumeric.isLight {c : Char} (h : IsNumeric c) : Xml.isLight c = true := by
  rcases h with h | rfl | rfl
  · have hother {d : Char} (hd : d.isDigit = false) : c ≠ d := Xml.ne_of_class h hd
    simp [Xml.isLight, hother]
  · decide
  · decide

namespace Xml

section Weights

theorem Element.weight_around {name : String} {as : List Attribute} (children : List Node) (inner : List Char)
    (hname : isPlainName name = true) (hlight : name.toList.all isLight = true)
    (hlights : (as.flatMap Attribute.written).all isLight = true) :
    weight (around ⟨name, as, children⟩ inner) = weight inner + 2 := by
  obtain ⟨c, cs, hcs, hc⟩ := isPlainName_cons hname
  have hstart : weight (startTag name as) = 1 := by
    rw [startTag, weight, weight_eq_zero]
    · rfl
    · rw [List.all_append, List.all_append, hlight, hlights]
      rfl
  have hslash : charge '/' (name.toList ++ ['>']).head? = 0 := by
    have hother : c ≠ '>' := ne_of_class hc (by decide)
    simp [hcs, charge, hother]
  have hend : weight (endTag name) = 1 := by
    rw [endTag, weight, weight, hslash, weight_eq_zero]
    · rfl
    · rw [List.all_append, hlight]
      rfl
  have hlast : (startTag name as).getLast? = some '>' := by
    rw [startTag, ← List.append_assoc, ← List.cons_append, List.getLast?_concat]
  rw [around, weight_append (.inl (by simp [hlast])), weight_append (.inr (by simp [endTag])), hstart, hend]
  omega

theorem light_count {key : String} (hkey : key.toList.all isLight = true) (n : ℕ) :
    (([⟨.none, key, toString n⟩] : List Attribute).flatMap Attribute.written).all isLight = true := by
  have hvalue : (toString n).toList.all isLight = true :=
    List.all_eq_true.2 fun c hc => (isNumeric_toString c hc).isLight
  rw [List.flatMap_singleton, Attribute.written, List.all_cons, List.all_append, List.all_cons, List.all_cons,
    List.all_append, hkey, hvalue]
  rfl

theorem weight_lineTexts {indent last : List Char} (hindent : ∀ c ∈ indent, c = '\t') (hlast : ∀ c ∈ last, c = '\t')
    (texts : List (List Char)) : weight (lineTexts indent last texts) = (texts.map weight).sum := by
  have htabs {tabs : List Char} (h : ∀ c ∈ tabs, c = '\t') : weight tabs = 0 :=
    weight_eq_zero (List.all_eq_true.2 fun c hc => by rw [h c hc]; rfl)
  have hline : weight (texts.flatMap (fun cs => indent ++ cs ++ ['\n']) ++ last) = (texts.map weight).sum := by
    induction texts with
    | nil => exact htabs hlast
    | cons cs texts ih =>
        have hfirst : indent.getLast? ≠ some '/' := fun hslash => by
          have := hindent _ (List.mem_of_getLast? hslash)
          cases this
        have hsplit : (cs :: texts).flatMap (fun cs => indent ++ cs ++ ['\n']) ++ last =
            (indent ++ cs) ++ '\n' :: (texts.flatMap (fun cs => indent ++ cs ++ ['\n']) ++ last) := by simp
        rw [hsplit, weight_newline, ih, weight_append (.inl hfirst), htabs hindent, zero_add]
        rfl
  have hnewline := weight_newline [] (texts.flatMap (fun cs => indent ++ cs ++ ['\n']) ++ last)
  rw [List.nil_append, hline, weight, zero_add] at hnewline
  rw [lineTexts, hnewline]

end Weights

section Texts

variable {P : String → Prop}

theorem Element.allText_leadingText {e : Element} (h : ∀ n ∈ e.children, n.AllText P) (hempty : P "") :
    P e.leadingText := by
  rw [leadingText]
  split
  · rename_i hchildren
    rw [hchildren] at h
    cases h _ List.mem_cons_self with
    | text hs => exact hs
  · exact hempty

theorem Element.allText_elements {e c : Element} (h : ∀ n ∈ e.children, n.AllText P) (hc : c ∈ e.elements) :
    ∀ n ∈ c.children, n.AllText P := by
  obtain ⟨n, hn, helement⟩ := List.mem_filterMap.1 hc
  cases h n hn with
  | element hchildren =>
      cases helement
      exact hchildren
  | text => cases helement
  | comment => cases helement
  | instruction => cases helement

theorem PlainText.part {u v : List Char} (h : PlainText v) (hpart : u <:+: v) : PlainText u where
  plain := List.all_eq_true.2 fun c hc => List.all_eq_true.1 h.plain c (hpart.subset hc)
  unmarked := by
    rw [← Bool.not_eq_true, hasInfix_iff (by simp)]
    intro hmark
    have hmarked := (hasInfix_iff (by simp)).2 (hmark.trans hpart)
    rw [h.unmarked] at hmarked
    cases hmarked

end Texts

section Loads

theorem sum_load_elements_le (ns : List Node) : ((ns.filterMap Node.element?).map Element.load).sum ≤ loads ns := by
  induction ns with
  | nil => rfl
  | cons n ns ih =>
      rw [List.filterMap_cons, loads]
      cases n with
      | element name as children =>
          simp only [Node.element?, List.map_cons, List.sum_cons, Element.load, Node.load]
          omega
      | text s => simp only [Node.element?]; omega
      | comment s => simp only [Node.element?]; omega
      | instruction target s => simp only [Node.element?]; omega

theorem Element.weight_leadingText_le (e : Element) : weight e.leadingText.toList + 2 ≤ e.load := by
  rw [leadingText, load]
  split
  · rename_i hchildren
    rw [hchildren, loads, Node.load]
    omega
  · simp [weight]

theorem sum_le_sum_of_keys {α κ : Type} [DecidableEq κ] {key : α → Option κ} {size : α → ℕ}
    {least : κ → ℕ} {es : List α} {ks : List κ} (hnodup : ks.Nodup)
    (h : ∀ k ∈ ks, ∃ e ∈ es, key e = some k ∧ least k ≤ size e) :
    (ks.map least).sum ≤ (es.map size).sum := by
  induction es generalizing ks with
  | nil =>
      cases ks with
      | nil => rfl
      | cons k ks =>
          obtain ⟨e, he, -⟩ := h k List.mem_cons_self
          cases he
  | cons e es ih =>
      rw [List.map_cons, List.sum_cons]
      by_cases hrest : ∀ k ∈ ks, ∃ e ∈ es, key e = some k ∧ least k ≤ size e
      · exact (ih hnodup hrest).trans (Nat.le_add_left _ _)
      · -- the first child is the only one for some key, and is then not needed for the others
        push Not at hrest
        obtain ⟨k, hk, hnone⟩ := hrest
        have hkey : key e = some k ∧ least k ≤ size e := by
          obtain ⟨e', he', hkey, hsize⟩ := h k hk
          rcases List.mem_cons.1 he' with rfl | he'
          · exact ⟨hkey, hsize⟩
          · exact absurd hsize (not_le.2 (hnone e' he' hkey))
        have hothers : ∀ k' ∈ ks.erase k, ∃ e ∈ es, key e = some k' ∧ least k' ≤ size e := by
          intro k' hk'
          obtain ⟨hne, hk'⟩ := hnodup.mem_erase_iff.1 hk'
          obtain ⟨e', he', hkey', hsize⟩ := h k' hk'
          rcases List.mem_cons.1 he' with rfl | he'
          · exact absurd (Option.some.inj (hkey'.symm.trans hkey.1)) hne
          · exact ⟨e', he', hkey', hsize⟩
        have hsum : (ks.map least).sum = least k + ((ks.erase k).map least).sum :=
          ((List.perm_cons_erase hk).map least).sum_eq
        have hle := ih (hnodup.erase k) hothers
        omega

end Loads

end Xml

namespace Document

open Xml

/-- The weight of an area in a document: of its element, its bounds and its label. -/
def areaWeight (N : ℕ) (a : Area) : ℕ := 4 * N + 4 + weight a.label.toList

def listWeight (l : AreaList) : ℕ := 2 + (l.areas.map (areaWeight l.dimensions)).sum

/-- An area with finite bounds in every dimension and a legal label without blanks around it, as readers deliver. -/
structure Delivered (N : ℕ) (a : Area) : Prop where
  length : ∀ b : Bound, (b.values a.bounds).length = N
  finite : ∀ b : Bound, ∀ v ∈ b.values a.bounds, v.isFinite = true
  trimmed : trimmed a.label = a.label.toList
  legal : IsLegal a.label

section Writing

variable {N : ℕ} {a : Area}

theorem weight_boundText (b : Bound) {v : Float} (hv : v.isFinite = true) (d : ℕ) :
    weight ((boundElement b v d).around (numberText v).toList) = 2 := by
  have htag : isPlainName b.tag = true ∧ b.tag.toList.all isLight = true := by cases b <;> decide
  have hnumber : (numberText v).toList.all isLight = true :=
    List.all_eq_true.2 fun c hc => (isNumeric_numberText hv c hc).isLight
  have hweight : weight ((boundElement b v d).around (numberText v).toList) = weight (numberText v).toList + 2 :=
    Element.weight_around _ _ htag.1 htag.2 (light_count (by decide) d)
  rw [hweight, weight_eq_zero hnumber]

theorem weight_boundTexts (b : Bound) {values : Point} (h : ∀ v ∈ values, v.isFinite = true) :
    ((boundTexts b values).map weight).sum = 2 * values.length := by
  have hall : ∀ w ∈ (boundTexts b values).map weight, w = 2 := by
    intro w hw
    obtain ⟨text, htext, rfl⟩ := List.mem_map.1 hw
    obtain ⟨⟨v, d⟩, hvd, rfl⟩ := List.mem_map.1 htext
    exact weight_boundText b (h v (List.fst_mem_of_mem_zipIdx hvd)) d
  rw [List.eq_replicate_of_mem hall, List.sum_replicate, List.length_map, boundTexts, List.length_map,
    List.length_zipIdx, smul_eq_mul, mul_comm]

theorem weight_areaText (h : Delivered N a) : weight (areaText a) = areaWeight N a := by
  have hlabel : weight (labelText a.label) = weight a.label.toList + 2 :=
    Element.weight_around _ _ (by decide) (by decide) (by decide)
  have hlow := weight_boundTexts .low (h.finite .low)
  have hhigh := weight_boundTexts .high (h.finite .high)
  rw [h.length .low] at hlow
  rw [h.length .high] at hhigh
  have harea (texts : List (List Char)) : weight ((areaElement a).around (lineTexts ['\t', '\t'] ['\t'] texts)) =
      (texts.map weight).sum + 2 := by
    have hlines : weight (lineTexts ['\t', '\t'] ['\t'] texts) = (texts.map weight).sum :=
      weight_lineTexts (by simp) (by simp) texts
    rw [← hlines]
    exact Element.weight_around _ _ (by decide) (by decide) (by decide)
  rw [areaText, harea, List.map_append, List.map_append, List.sum_append, List.sum_append, areaWeight]
  simp only [Bound.values] at hlow hhigh
  simp only [hlow, hhigh, hlabel, List.map_cons, List.map_nil, List.sum_cons, List.sum_nil]
  omega

theorem weight_listText {l : AreaList} (h : ∀ a ∈ l.areas, Delivered l.dimensions a) :
    weight (listText l ++ ['\n']) = listWeight l := by
  have hlist : weight (listText l) = weight (lineTexts ['\t'] [] (l.areas.map areaText)) + 2 :=
    Element.weight_around _ _ (by decide) (by decide) (light_count (by decide) _)
  have hareas : (l.areas.map areaText).map weight = l.areas.map (areaWeight l.dimensions) := by
    rw [List.map_map]
    exact List.map_congr_left fun a ha => weight_areaText (h a ha)
  rw [weight_newline, hlist, weight_lineTexts (by simp) (by simp), hareas, listWeight, weight]
  omega

end Writing

section Reading

variable {N : ℕ} {a : Area} {e root : Element} {l : AreaList}

theorem exists_label (h : Describes N e.elements a) :
    ∃ c ∈ e.elements, role? c = some .label ∧ a.label = String.ofList (trimmed c.leadingText) := by
  obtain ⟨c, hc, hlabel⟩ := Option.map_eq_some_iff.1 h.label
  obtain ⟨hmem, hrole⟩ := mem_inRole.1 (List.mem_of_getLast? hc)
  exact ⟨c, hmem, hrole, hlabel.symm⟩

def roles (N : ℕ) : List Role :=
  (List.range N).map (fun n => .bound .low (some n)) ++
    ((List.range N).map (fun n => .bound .high (some n)) ++ [.label])

theorem nodup_roles (N : ℕ) : (roles N).Nodup := by
  have hbound (b : Bound) : ((List.range N).map fun n => Role.bound b (some n)).Nodup :=
    List.nodup_range.map fun m n h => by simpa using h
  rw [roles, List.nodup_append', List.nodup_append']
  refine ⟨hbound .low, ⟨hbound .high, List.nodup_singleton _, ?_⟩, ?_⟩
  · simp
  · simp [List.disjoint_left]

theorem forall_roles {P : Role → Prop} (hbound : ∀ b, ∀ n < N, P (.bound b (some n))) (hlabel : P .label) :
    ∀ r ∈ roles N, P r := by
  intro r hr
  simp only [roles, List.mem_append, List.mem_map, List.mem_range, List.mem_singleton] at hr
  obtain ⟨n, hn, rfl⟩ | ⟨n, hn, rfl⟩ | rfl := hr
  · exact hbound .low n hn
  · exact hbound .high n hn
  · exact hlabel

def Role.least (label : List Char) : Role → ℕ
  | .bound _ _ => 2
  | .label => weight label + 2

theorem sum_least (N : ℕ) (label : List Char) : ((roles N).map (Role.least label)).sum = 4 * N + weight label + 2 := by
  have hbound (b : Bound) :
      (((List.range N).map fun n => Role.bound b (some n)).map (Role.least label)).sum = 2 * N := by
    have hconst : Role.least label ∘ (fun n => Role.bound b (some n)) = fun _ => 2 := rfl
    rw [List.map_map, hconst, List.map_const', List.sum_replicate, List.length_range, smul_eq_mul, mul_comm]
  rw [roles, List.map_append, List.map_append, List.sum_append, List.sum_append, hbound, hbound]
  simp only [List.map_cons, List.map_nil, List.sum_cons, List.sum_nil, Role.least]
  omega

theorem areaWeight_le_load (hd : Described N e.elements) (h : Describes N e.elements a) : areaWeight N a ≤ e.load := by
  have hkeys : ∀ r ∈ roles N, ∃ c ∈ e.elements, role? c = some r ∧ r.least a.label.toList ≤ c.load := by
    refine forall_roles (fun b n hn => ?_) ?_
    · obtain ⟨c, hc⟩ := List.exists_mem_of_ne_nil _ (hd.bounds b n hn)
      obtain ⟨hmem, hrole⟩ := mem_inRole.1 hc
      exact ⟨c, hmem, hrole, Nat.le_add_right 2 _⟩
    · obtain ⟨c, hmem, hrole, hlabel⟩ := exists_label h
      refine ⟨c, hmem, hrole, le_trans ?_ c.weight_leadingText_le⟩
      rw [Role.least, hlabel, String.toList_ofList]
      exact Nat.add_le_add_right (weight_mono (Text.trim_part _)) 2
  have hchildren := sum_le_sum_of_keys (nodup_roles N) hkeys
  have hload : (e.elements.map Element.load).sum ≤ loads e.children := sum_load_elements_le e.children
  rw [sum_least] at hchildren
  rw [areaWeight, Element.load]
  omega

theorem exists_dimensions (h : areasOf root = .ok l) : dimensions root = .ok l.dimensions := by
  obtain ⟨N, hN, h⟩ := bind_eq_ok.1 h
  obtain ⟨areas, -, h⟩ := bind_eq_ok.1 h
  cases h
  exact hN

/-- A tree in which areas are found weighs at least as much as they do. -/
theorem listWeight_le_load (h : areasOf root = .ok l) : listWeight l ≤ root.load := by
  obtain ⟨-, hareas⟩ := (areasOf_eq_ok (exists_dimensions h)).1 h
  have hsum : (l.areas.map (areaWeight l.dimensions)).sum ≤ ((root.childrenNamed "area").map Element.load).sum := by
    refine List.Forall₂.sum_le_sum ?_
    rw [List.forall₂_map_left_iff, List.forall₂_map_right_iff]
    exact (hareas.imp fun e a h => areaWeight_le_load h.1 h.2).flip
  have hnamed : ((root.childrenNamed "area").map Element.load).sum ≤ (root.elements.map Element.load).sum :=
    (List.filter_sublist.map Element.load).sum_le_sum (by simp)
  have hload : (root.elements.map Element.load).sum ≤ loads root.children := sum_load_elements_le root.children
  rw [listWeight, Element.load]
  omega

theorem delivered_of_describes (hd : Described N e.elements) (h : Describes N e.elements a)
    (hlegal : ∀ c ∈ e.elements, IsLegal c.leadingText) : Delivered N a where
  length b := by simpa using congrArg List.length (h.bounds b)
  finite := by
    intro b v hv
    have hmem : some v ∈ (List.range N).map (lastBound? e.elements b) := by
      rw [← h.bounds b]
      exact List.mem_map.2 ⟨v, hv, rfl⟩
    obtain ⟨n, -, hn⟩ := List.mem_map.1 hmem
    obtain ⟨c, hc, hread⟩ := Option.bind_eq_some_iff.1 hn
    obtain ⟨hmem, hrole⟩ := mem_inRole.1 (List.mem_of_getLast? hc)
    obtain ⟨-, w, hw, hfin⟩ := hd.proper c hmem ⟨b, (role?_eq_bound.1 hrole).1⟩
    cases hread.symm.trans hw
    exact hfin
  trimmed := by
    obtain ⟨c, -, -, hlabel⟩ := exists_label h
    rw [hlabel, Document.trimmed, String.toList_ofList]
    exact Text.trim_trim _
  legal := by
    obtain ⟨c, hmem, -, hlabel⟩ := exists_label h
    rw [hlabel, IsLegal, String.toList_ofList, List.all_eq_true]
    exact fun d hd => List.all_eq_true.1 (hlegal c hmem) d ((Text.trim_part _).subset hd)

end Reading

section Rereading

variable {text : String} {l : AreaList}

theorem readAreas_eq_ok : readAreas text = .ok l ↔ ∃ root, Xml.parse true text = .ok root ∧ areasOf root = .ok l := by
  refine bind_eq_ok.trans (exists_congr fun root => and_congr_left' ?_)
  exact parse_eq_ok

theorem readNatural?_lt {cs : List Char} {n : ℕ} (h : readNatural? cs = some n) : n < UInt64.size := by
  unfold readNatural? at h
  grind

theorem delivered_of_readAreas (h : readAreas text = .ok l) :
    0 < l.dimensions ∧ l.dimensions < UInt64.size ∧ ∀ a ∈ l.areas, Delivered l.dimensions a := by
  obtain ⟨root, hparse, hroot⟩ := readAreas_eq_ok.1 h
  have hdimensions := exists_dimensions hroot
  obtain ⟨count, -, hread, hpos⟩ := dimensions_eq_ok.1 hdimensions
  refine ⟨hpos, readNatural?_lt hread, fun a ha => ?_⟩
  obtain ⟨-, hareas⟩ := (areasOf_eq_ok hdimensions).1 hroot
  obtain ⟨e, he, hd, hdescribes⟩ := exists_mem_of_forall₂ hareas a ha
  have hlegal := Element.allText_elements (legal_of_parse hparse) (List.mem_of_mem_filter he)
  exact delivered_of_describes hd hdescribes fun c hc =>
    Element.allText_leadingText (Element.allText_elements hlegal hc) rfl

theorem Delivered.writable {N : ℕ} {a : Area} (h : Delivered N a) (hplain : PlainText a.label.toList) :
    Writable N a where
  low := h.length .low
  high := h.length .high
  finite_low := h.finite .low
  finite_high := h.finite .high
  plain := hplain
  trimmed := h.trimmed

theorem opening?_writeAreas (l : AreaList) : opening? true (writeAreas l) = some ([], listText l ++ ['\n']) := by
  have htag : PlainTag (listElement l).name (listElement l).attributes :=
    plainTag_count "arealist" "dimensions" l.dimensions (by decide) (by decide) (by decide)
  have htext : listText l ++ ['\n'] = startTag (listElement l).name (listElement l).attributes ++
      (lineTexts ['\t'] [] (l.areas.map areaText) ++ (endTag (listElement l).name ++ ['\n'])) := by
    simp [listText, Element.around]
  have hopen := opening?_areaDoctype htag
    (lineTexts ['\t'] [] (l.areas.map areaText) ++ (endTag (listElement l).name ++ ['\n']))
  rw [← htext, ← toList_writeAreas, String.ofList_toList] at hopen
  exact hopen

/-- If a list comes back, all its labels stand for themselves: the document weighs as much as the areas that are found
in it, so no markup in it can be of another kind. -/
theorem plain_of_reread (hl : ∀ a ∈ l.areas, Delivered l.dimensions a) (h : readAreas (writeAreas l) = .ok l) :
    ∀ a ∈ l.areas, PlainText a.label.toList := by
  obtain ⟨root, hparse, hroot⟩ := readAreas_eq_ok.1 h
  obtain ⟨hle, hplain⟩ := Progress.load_le_weight (opening?_writeAreas l) hparse
  rw [weight_listText hl] at hle hplain
  have htexts := hplain (le_antisymm hle (listWeight_le_load hroot))
  obtain ⟨-, hareas⟩ := (areasOf_eq_ok (exists_dimensions hroot)).1 hroot
  intro a ha
  obtain ⟨e, he, -, hdescribes⟩ := exists_mem_of_forall₂ hareas a ha
  obtain ⟨c, hc, -, hlabel⟩ := exists_label hdescribes
  have hchild := Element.allText_elements (Element.allText_elements htexts (List.mem_of_mem_filter he)) hc
  have hleading := Element.allText_leadingText hchild ⟨rfl, rfl⟩
  rw [hlabel, String.toList_ofList]
  exact hleading.part (Text.trim_part _)

/-- A label without any character or mark that would have to be escaped. -/
structure Bare (label : List Char) : Prop where
  tag : '<' ∉ label
  ampersand : '&' ∉ label
  carriage : '\r' ∉ label
  mark : ¬[']', ']', '>'] <:+: label

theorem plainText_iff_bare {label : List Char} (hlegal : label.all isChar = true) : PlainText label ↔ Bare label := by
  have hmark : hasInfix [']', ']', '>'] label = false ↔ ¬[']', ']', '>'] <:+: label := by
    rw [← hasInfix_iff (by simp), Bool.not_eq_true]
  constructor
  · intro h
    obtain ⟨-, htag, hampersand, hcarriage⟩ := all_isPlain_iff.1 h.plain
    exact ⟨htag, hampersand, hcarriage, hmark.1 h.unmarked⟩
  · intro h
    exact ⟨all_isPlain_iff.2 ⟨hlegal, h.tag, h.ampersand, h.carriage⟩, hmark.2 h.mark⟩

/-- What was read can be written and read again if and only if no label holds a character that begins markup, a carriage
return, or the mark that ends a section. -/
theorem rereads_iff_bare (h : readAreas text = .ok l) :
    readAreas (writeAreas l) = .ok l ↔ ∀ a ∈ l.areas, Bare a.label.toList := by
  obtain ⟨hpos, hsize, hl⟩ := delivered_of_readAreas h
  constructor
  · intro hreread a ha
    exact (plainText_iff_bare (hl a ha).legal).1 (plain_of_reread hl hreread a ha)
  · intro hbare
    have hwritable : ∀ a ∈ l.areas, Writable l.dimensions a := fun a ha =>
      (hl a ha).writable ((plainText_iff_bare (hl a ha).legal).2 (hbare a ha))
    exact readAreas_written hpos hsize hwritable

theorem exists_readAreas {labels : List String}
    (h : ((readAreas text).toOption.map fun l => l.areas.map Area.label) = some labels) :
    ∃ l, readAreas text = .ok l ∧ l.areas.map Area.label = labels := by
  cases hread : readAreas text with
  | error e => simp [hread, Except.toOption] at h
  | ok l =>
      rw [hread] at h
      exact ⟨l, rfl, Option.some.inj h⟩

def referredLabel : String :=
  "<!DOCTYPE list [<!ENTITY e '<![CDATA[]]]>'>]><list dimensions='1'><area><max dimension='0'>2</max>" ++
    "<min dimension='0'>1e0</min><prefix> &#48;&e;<![CDATA[]é]]> </prefix></area></list>"

theorem rereads_iff_bare_referred : ∃ l, readAreas referredLabel = .ok l ∧ l.areas.map Area.label = ["0]]é"] ∧
    (∀ a ∈ l.areas, Bare a.label.toList) ∧ readAreas (writeAreas l) = .ok l := by
  have hread : ((readAreas referredLabel).toOption.map fun l => l.areas.map Area.label) = some ["0]]é"] := by
    decide +kernel
  obtain ⟨l, hl, hlabels⟩ := exists_readAreas hread
  have hbare : ∀ a ∈ l.areas, Bare a.label.toList := by
    intro a ha
    have hlabel : a.label ∈ ["0]]é"] := hlabels ▸ List.mem_map.2 ⟨a, ha, rfl⟩
    rw [List.mem_singleton.1 hlabel]
    exact ⟨by decide, by decide, by decide, by decide⟩
  exact ⟨l, hl, hlabels, hbare, (rereads_iff_bare hl).2 hbare⟩

def ampersandLabel : String :=
  "<list dimensions='1'><area><min dimension='0'>1</min><max dimension='0'>2</max><prefix>a&amp;b</prefix></area></list>"

theorem not_reread_ampersand : ∃ l, readAreas ampersandLabel = .ok l ∧ readAreas (writeAreas l) ≠ .ok l := by
  have hread : ((readAreas ampersandLabel).toOption.map fun l => l.areas.map Area.label) = some ["a&b"] := by
    decide +kernel
  obtain ⟨l, hl, hlabels⟩ := exists_readAreas hread
  refine ⟨l, hl, fun hreread => ?_⟩
  obtain ⟨-, -, hdelivered⟩ := delivered_of_readAreas hl
  obtain ⟨a, ha, hlabel⟩ : ∃ a ∈ l.areas, a.label = "a&b" := List.mem_map.1 (hlabels ▸ List.mem_singleton_self _)
  have hplain := (plain_of_reread hdelivered hreread a ha).plain
  rw [hlabel] at hplain
  exact absurd hplain (by decide)

end Rereading

end Document

end Bisection
