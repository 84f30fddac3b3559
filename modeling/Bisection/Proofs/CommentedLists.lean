import Mathlib
import Bisection.Proofs.CommentPlaces
import Bisection.Proofs.NodeReading

namespace Bisection

namespace Xml.Recut

variable {old new : String} {names : List String} {e e' : Element}

theorem name_eq (h : Recut old new names e e') : e'.name = e.name := by
  cases h with
  | here name => exact name
  | inside => rfl

theorem attributes_eq (h : Recut old new names e e') : e'.attributes = e.attributes := by
  cases h with
  | here _ attributes => exact attributes
  | inside => rfl

theorem length_pos (h : Recut old new names e e') : 0 < names.length := by
  cases h <;> simp

theorem getLast?_names (h : Recut old new names e e') : names.getLast? = some e.name := by
  cases h <;> simp

theorem leadingText_cases (h : Recut old new names e e') :
    names = [e.name] ∧ e.leadingText = old ∧ e'.leadingText = new ∨
      2 ≤ names.length ∧ e'.leadingText = e.leadingText := by
  cases h with
  | here _ _ _ hold hnew => exact .inl ⟨rfl, hold, hnew⟩
  | inside h name attributes before after =>
      have hpos := h.length_pos
      refine .inr ⟨by simp; omega, ?_⟩
      cases before with
      | nil => rfl
      | cons n before => exact Element.leadingText_congr rfl

theorem elements_cases (h : Recut old new names e e') :
    names = [e.name] ∧ e'.elements = e.elements ∨ ∃ inner c c' before after, Recut old new inner c c' ∧
      names = inner ++ [e.name] ∧ e.elements = before ++ c :: after ∧ e'.elements = before ++ c' :: after := by
  cases h with
  | here _ _ elements => exact .inl ⟨rfl, elements⟩
  | @inside inner c c' h name attributes before after =>
      refine .inr ⟨inner, c, c', before.filterMap Node.element?, after.filterMap Node.element?, h, rfl, ?_, ?_⟩
      · rw [Element.elements, List.filterMap_append]
        rfl
      · rw [Element.elements, List.filterMap_append]
        rfl

end Xml.Recut

section Lists

variable {α β γ : Type}

theorem map_eq_of_map_eq {u : α → β} {w : α → γ} {as as' : List α} (h : as'.map u = as.map u)
    (hw : ∀ a ∈ as, ∀ a' ∈ as', u a' = u a → w a' = w a) : as'.map w = as.map w := by
  induction as generalizing as' with
  | nil => rw [List.map_eq_nil_iff.1 h]
  | cons a as ih =>
      obtain ⟨a', as', rfl, ha, has⟩ := List.map_eq_cons_iff.1 h
      rw [List.map_cons, List.map_cons, hw a List.mem_cons_self a' List.mem_cons_self ha,
        ih has fun b hb b' hb' => hw b (List.mem_cons_of_mem a hb) b' (List.mem_cons_of_mem a' hb')]

theorem forall₂_iff_map {g : α → γ} {k : β → γ} {P : β → Prop} {as : List α} {bs : List β} :
    List.Forall₂ (fun a b => g a = k b ∧ P b) as bs ↔ as.map g = bs.map k ∧ ∀ b ∈ bs, P b := by
  induction as generalizing bs with
  | nil => cases bs <;> simp
  | cons a as ih =>
      cases bs with
      | nil => simp
      | cons b bs =>
          simp only [List.forall₂_cons, ih, List.map_cons, List.cons.injEq, List.forall_mem_cons]
          tauto

end Lists

namespace Document

open Xml (Element Recut Remark Progress)

section Views

variable {α : Type} {old new : String} {names : List String} {e e' : Element}

theorem map_filter_replace {es fs : List Element} {c c' : Element} {p : Element → Bool} (hp : p c' = p c)
    (view : Element → α) : ((es ++ c' :: fs).filter p).map view = ((es ++ c :: fs).filter p).map view ↔
      (p c = true → view c' = view c) := by
  cases hc : p c with
  | false => simp [hp, hc]
  | true => simp [hp, hc]

def coordinateView (f : List Char → α) (e : Element) : List α := (coords e).map fun c => f (trimmed c.leadingText)

theorem coordinateView_recut (h : Recut old new names e e') (f : List Char → α) :
    coordinateView f e' = coordinateView f e ↔
      (names = ["coord", e.name] → f (trimmed new) = f (trimmed old)) := by
  rcases h.elements_cases with ⟨rfl, helements⟩ | ⟨inner, c, c', before, after, hc, rfl, he, he'⟩
  · have hcoords : coords e' = coords e := congrArg (List.filter _) helements
    simp [coordinateView, hcoords]
  · have hcoords : coords e = (before ++ c :: after).filter fun c => c.name == "coord" := congrArg (List.filter _) he
    have hcoords' : coords e' = (before ++ c' :: after).filter fun c => c.name == "coord" :=
      congrArg (List.filter _) he'
    rw [coordinateView, coordinateView, hcoords, hcoords', map_filter_replace (by rw [hc.name_eq])]
    rcases hc.leadingText_cases with ⟨rfl, hold, hnew⟩ | ⟨hlong, hsame⟩
    · simp [hold, hnew]
    · have hother : inner ++ [e.name] ≠ ["coord", e.name] := by
        intro hnames
        have := congrArg List.length hnames
        simp at this
        omega
      simp [hsame, hother]

theorem listedNodesIn_append (parent : String) (ns ms : List Xml.Node) :
    listedNodesIn parent (ns ++ ms) = listedNodesIn parent ns ++ listedNodesIn parent ms := by
  induction ns with
  | nil => rfl
  | cons n ns ih => rw [List.cons_append, listedNodesIn, listedNodesIn, ih, List.append_assoc]

theorem listedNodesIn_eq (parent : String) (ns : List Xml.Node) :
    listedNodesIn parent ns = (ns.filterMap Xml.Node.element?).flatMap fun e => listedNodes parent e.node := by
  induction ns with
  | nil => rfl
  | cons n ns ih =>
      rw [listedNodesIn, ih]
      cases n with
      | element name attributes children => rfl
      | text | comment | instruction => rfl

theorem listedNodes_node (parent : String) (e : Element) : listedNodes parent e.node =
    (if (e.name == "node" && parent == "nodelist") = true then [e] else []) ++ listedNodesIn e.name e.children := rfl

theorem coordinate_chain_iff {ns : List String} {name parent : String} :
    (∃ outer, ns ++ [name] ++ [parent] = "coord" :: "node" :: "nodelist" :: outer) ↔
      (name = "node" ∧ parent = "nodelist" ∧ ns = ["coord"]) ∨
        ∃ outer, ns ++ [name] = "coord" :: "node" :: "nodelist" :: outer := by
  rcases ns with _ | ⟨a, _ | ⟨b, _ | ⟨c, rest⟩⟩⟩
  · simp
  · simp; tauto
  · simp
  · simp

theorem map_listedNodes_recut (h : Recut old new names e e') (f : List Char → α) (parent : String) :
    (listedNodes parent e'.node).map (coordinateView f) = (listedNodes parent e.node).map (coordinateView f) ↔
      ((∃ outer, names ++ [parent] = "coord" :: "node" :: "nodelist" :: outer) →
        f (trimmed new) = f (trimmed old)) := by
  induction h generalizing parent with
  | @here e e' name attributes elements hold hnew =>
      have hself : coordinateView f e' = coordinateView f e := by
        have hcoords : coords e' = coords e := congrArg (List.filter _) elements
        rw [coordinateView, coordinateView, hcoords]
      have hinner : listedNodesIn e'.name e'.children = listedNodesIn e.name e.children := by
        rw [listedNodesIn_eq, listedNodesIn_eq, name]
        exact congrArg (List.flatMap _) elements
      rw [listedNodes_node, listedNodes_node, hinner, name]
      refine iff_of_true ?_ (by simp)
      split <;> simp [hself]
  | @inside ns c c' h name attributes before after ih =>
      -- the element can be a listed node itself, and listed nodes can be inside of it
      have hself := coordinateView_recut (h.inside name attributes before after) f
      rw [coordinate_chain_iff, or_imp, ← ih name, listedNodes_node, listedNodes_node]
      simp only [listedNodesIn_append, listedNodesIn]
      by_cases hlisted : (name == "node" && parent == "nodelist") = true
      · obtain ⟨rfl, rfl⟩ : name = "node" ∧ parent = "nodelist" := by simpa using hlisted
        simp only [if_pos hlisted, List.map_append, List.map_cons, List.cons_append, List.nil_append,
          List.cons.injEq, List.append_cancel_left_eq, List.append_cancel_right_eq, hself]
        simp [List.append_eq_cons_iff]
      · have hnot : ¬(name = "node" ∧ parent = "nodelist" ∧ ns = ["coord"]) := fun h => hlisted (by simp [h.1, h.2.1])
        simp only [if_neg hlisted, List.map_append, List.nil_append, List.append_cancel_left_eq,
          List.append_cancel_right_eq]
        exact ⟨fun hview => ⟨fun h => absurd h hnot, hview⟩, And.right⟩

/-- The innermost of the named elements is a coordinate of a listed node. -/
def InCoordinate (names : List String) : Prop := ∃ outer, names = "coord" :: "node" :: "nodelist" :: outer

theorem nodesOf_eq (root : Element) : nodesOf root = listedNodes "" root.node := by
  rw [listedNodes_node, nodesOf]
  simp

theorem map_nodesOf_recut {root root' : Element} (h : Recut old new names root root') (f : List Char → α) :
    (nodesOf root').map (coordinateView f) = (nodesOf root).map (coordinateView f) ↔
      (InCoordinate names → f (trimmed new) = f (trimmed old)) := by
  rw [nodesOf_eq, nodesOf_eq, map_listedNodes_recut h f ""]
  have hchain : (∃ outer, names ++ [""] = "coord" :: "node" :: "nodelist" :: outer) ↔ InCoordinate names := by
    constructor
    · rintro ⟨outer, houter⟩
      rcases names with _ | ⟨a, _ | ⟨b, _ | ⟨c, rest⟩⟩⟩
      all_goals simp at houter
      exact ⟨rest, by simp [houter]⟩
    · rintro ⟨outer, rfl⟩
      exact ⟨outer ++ [""], rfl⟩
  rw [hchain]

end Views

section Points

variable {root root' e e' : Element} {N index : Nat} {s t : PointSet} {p : Point}

theorem dimensions_congr (hname : root'.name = root.name) (hattributes : root'.attributes = root.attributes) :
    dimensions root' = dimensions root := by
  rw [dimensions, dimensions, Element.attribute?, Element.attribute?, hname, hattributes]

theorem coordinates_congr (h : coordinateView id e' = coordinateView id e) (index : Nat) :
    coordinates index e' = coordinates index e := by
  have hnumbers : (coords e').map (number (.coordinate index)) = (coords e).map (number (.coordinate index)) :=
    map_eq_of_map_eq h fun c _ c' _ (hc : trimmed c'.leadingText = trimmed c.leadingText) => by rw [number, number, hc]
  have hmapM (e : Element) : coordinates index e = ((coords e).map (number (.coordinate index))).mapM id := by
    rw [List.mapM_map]
    rfl
  rw [hmapM, hmapM, hnumbers]

theorem addNodes_congr {es es' : List Element} (h : es'.map (coordinateView id) = es.map (coordinateView id))
    (s : PointSet) (index : Nat) : addNodes s index es' = addNodes s index es := by
  induction es generalizing es' s index with
  | nil => rw [List.map_eq_nil_iff.1 h]
  | cons e es ih =>
      obtain ⟨e', es', rfl, he, hes⟩ := List.map_eq_cons_iff.1 h
      rw [addNodes_cons, addNodes_cons, coordinates_congr he]
      simp only [ih hes]

theorem forall₂_locates {es : List Element} {points : List Point} : List.Forall₂ Locates es points ↔
    es.map (coordinateView readFloat?) = points.map (List.map some) ∧ ∀ p ∈ points, ∀ v ∈ p, v.isFinite = true := by
  have hlocates : Locates = fun e p => coordinateView readFloat? e = p.map some ∧ ∀ v ∈ p, v.isFinite = true :=
    funext₂ fun e p => propext forall₂_iff_map
  rw [hlocates, forall₂_iff_map]

theorem addNodes_eq_ok {es : List Element} : addNodes s index es = .ok t ↔ ∃ points,
    es.map (coordinateView readFloat?) = points.map (List.map some) ∧ (∀ p ∈ points, PointSet.Fits s.dimensions p) ∧
      t = { s with points := s.points ++ points } := by
  constructor
  · intro h
    obtain ⟨points, hpoints, rfl⟩ := points_of_addNodes h
    refine ⟨points, (forall₂_locates.1 hpoints).1, fun p hp => ?_, rfl⟩
    obtain ⟨e, he, hlocates⟩ := exists_mem_of_forall₂ hpoints p hp
    exact hlocates.fits (hlocates.length_eq.trans (exists_addNodes.1 ⟨_, h⟩ e he).1)
  · rintro ⟨points, hview, hfits, rfl⟩
    have hpoints : List.Forall₂ Locates es points := forall₂_locates.2 ⟨hview, fun p hp => (hfits p hp).2⟩
    have hcomplete : ∀ e ∈ es, CompleteNode s.dimensions e := by
      intro e he
      obtain ⟨p, hp, hlocates⟩ := exists_mem_of_forall₂ hpoints.flip e he
      exact exists_locates.1 ⟨p, (hfits p hp).1, hlocates⟩
    obtain ⟨t, ht⟩ : ∃ t, addNodes s index es = .ok t := exists_addNodes.2 hcomplete
    obtain ⟨points', hpoints', rfl⟩ := points_of_addNodes ht
    have hsame : points' = points := by
      have hmap := (forall₂_locates.1 hpoints').1.symm.trans hview
      exact List.map_injective_iff.2 (List.map_injective_iff.2 (Option.some_injective _)) hmap
    rw [ht, hsame]

theorem pointsOf_eq_ok (h : dimensions root = .ok N) : pointsOf root = .ok s ↔ s.dimensions = N ∧
    (nodesOf root).map (coordinateView readFloat?) = s.points.map (List.map some) ∧
      ∀ p ∈ s.points, PointSet.Fits N p := by
  rw [pointsOf_eq h, addNodes_eq_ok]
  constructor
  · rintro ⟨points, hview, hfits, rfl⟩
    exact ⟨rfl, hview, hfits⟩
  · rintro ⟨rfl, hview, hfits⟩
    exact ⟨s.points, hview, hfits, rfl⟩

section Recut

variable {old new : String} {names : List String}

theorem pointsOf_recut (h : Recut old new names root root') (hplace : InCoordinate names → trimmed new = trimmed old) :
    pointsOf root' = pointsOf root := by
  have hview := (map_nodesOf_recut h id).2 hplace
  rw [pointsOf, pointsOf, dimensions_congr h.name_eq h.attributes_eq]
  simp only [addNodes_congr hview]

theorem pointsOf_recut_eq_ok (h : Recut old new names root root') (hs : pointsOf root = .ok s) :
    pointsOf root' = .ok s ↔ (InCoordinate names → readFloat? (trimmed new) = readFloat? (trimmed old)) := by
  rw [← map_nodesOf_recut h readFloat?]
  have hdim := dimensions_congr h.name_eq h.attributes_eq
  cases hN : dimensions root with
  | error err =>
      rw [pointsOf, hN] at hs
      cases hs
  | ok N =>
      obtain ⟨hdims, hview, hfits⟩ := (pointsOf_eq_ok hN).1 hs
      rw [pointsOf_eq_ok (hdim.trans hN), hview]
      exact ⟨fun h => h.2.1, fun h => ⟨hdims, h, hfits⟩⟩

end Recut

end Points

section Areas

variable {α : Type} {old new : String} {names : List String} {e e' root root' : Element}

/-- What becomes of a child of an area, as far as its name, its attributes and its text tell. -/
def childView (f : String → List Char → α) (c : Element) : String × List Xml.Attribute × α :=
  (c.name, c.attributes, f c.name (trimmed c.leadingText))

def areaView (f : String → List Char → α) (e : Element) : List (String × List Xml.Attribute × α) :=
  e.elements.map (childView f)

theorem childView_eq_iff {f : String → List Char → α} : childView f e' = childView f e ↔ e'.name = e.name ∧
    e'.attributes = e.attributes ∧ f e.name (trimmed e'.leadingText) = f e.name (trimmed e.leadingText) := by
  simp only [childView, Prod.mk.injEq]
  refine and_congr_right fun hname => ?_
  rw [hname]

theorem childView_recut (h : Recut old new names e e') (f : String → List Char → α) : childView f e' = childView f e ↔
    (names = [e.name] → f e.name (trimmed new) = f e.name (trimmed old)) := by
  rw [childView_eq_iff, and_iff_right h.name_eq, and_iff_right h.attributes_eq]
  rcases h.leadingText_cases with ⟨rfl, hold, hnew⟩ | ⟨hlong, hsame⟩
  · simp [hold, hnew]
  · have hother : names ≠ [e.name] := by
      rintro rfl
      simp at hlong
    simp [hsame, hother]

theorem areaView_recut (h : Recut old new names e e') (f : String → List Char → α) : areaView f e' = areaView f e ↔
    ∀ tag, names = [tag, e.name] → f tag (trimmed new) = f tag (trimmed old) := by
  rcases h.elements_cases with ⟨rfl, helements⟩ | ⟨inner, c, c', before, after, hc, rfl, he, he'⟩
  · simp [areaView, helements]
  · have hview : areaView f e' = areaView f e ↔ childView f c' = childView f c := by simp [areaView, he, he']
    rw [hview, childView_recut hc]
    have hlast := hc.getLast?_names
    constructor
    · intro h tag hnames
      obtain rfl : inner = [tag] := List.append_cancel_right hnames
      obtain rfl : tag = c.name := Option.some.inj hlast
      exact h rfl
    · rintro h rfl
      exact h c.name rfl

theorem map_areas_recut (h : Recut old new names root root') (f : String → List Char → α) :
    (root'.childrenNamed "area").map (areaView f) = (root.childrenNamed "area").map (areaView f) ↔
      ∀ tag, names = [tag, "area", root.name] → f tag (trimmed new) = f tag (trimmed old) := by
  have hareas (e : Element) : e.childrenNamed "area" = e.elements.filter fun c => c.name == "area" := rfl
  rw [hareas, hareas]
  rcases h.elements_cases with ⟨rfl, helements⟩ | ⟨inner, c, c', before, after, hc, rfl, he, he'⟩
  · simp [helements]
  · rw [he, he', map_filter_replace (by rw [hc.name_eq]), areaView_recut hc, beq_iff_eq]
    have hlast := hc.getLast?_names
    constructor
    · intro h tag hnames
      obtain rfl : inner = [tag, "area"] := List.append_cancel_right hnames
      obtain hname : "area" = c.name := Option.some.inj hlast
      exact h hname.symm tag (by rw [hname])
    · rintro h hname tag rfl
      exact h tag (by rw [hname]; rfl)

def partText (tag : String) (text : List Char) : Option (List Char) :=
  if tag = "prefix" ∨ (Bound.ofTag? tag).isSome then some text else none

theorem add_congr {N index : Nat} {c c' : Element} (h : childView partText c' = childView partText c) (d : Draft) :
    d.add N index c' = d.add N index c := by
  obtain ⟨hname, hattributes, htext⟩ := childView_eq_iff.1 h
  by_cases hlabel : c.name = "prefix"
  · have htrimmed : trimmed c'.leadingText = trimmed c.leadingText := by simpa [partText, hlabel] using htext
    rw [add_label hlabel, add_label (hname.trans hlabel), htrimmed]
  · cases hb : Bound.ofTag? c.name with
    | none =>
        have hrole (c : Element) (hlabel : c.name ≠ "prefix") (hb : Bound.ofTag? c.name = none) : role? c = none := by
          rw [role?, if_neg hlabel, hb]
          rfl
        rw [add_other (hrole c hlabel hb), add_other (hrole c' (hname ▸ hlabel) (hname ▸ hb))]
    | some b =>
        have htrimmed : trimmed c'.leadingText = trimmed c.leadingText := by simpa [partText, hb] using htext
        have htag := ofTag?_eq_some.1 hb
        have hdimension : boundDimension N index b c' = boundDimension N index b c := by
          rw [boundDimension, boundDimension, Element.attribute?, Element.attribute?, hattributes]
        have hnumber : number (b.place index) c' = number (b.place index) c := by rw [number, number, htrimmed]
        rw [add_bound htag, add_bound (hname.trans htag), hdimension, hnumber]

theorem readArea_congr (h : areaView partText e' = areaView partText e) (N index : Nat) :
    readArea N index e' = readArea N index e := by
  have hsteps : (e'.elements.map fun c d => Draft.add N index d c) = e.elements.map fun c d => Draft.add N index d c :=
    map_eq_of_map_eq h fun c _ c' _ hc => funext (add_congr hc)
  have hfold (e : Element) : e.elements.foldlM (Draft.add N index) {} =
      (e.elements.map fun c d => Draft.add N index d c).foldlM (fun d step => step d) {} := by
    rw [List.foldlM_map]
  rw [readArea, readArea, describedArea_eq, describedArea_eq, hfold, hfold, hsteps]

theorem readAreasFrom_congr {es es' : List Element} (h : es'.map (areaView partText) = es.map (areaView partText))
    (N index : Nat) : readAreasFrom N index es' = readAreasFrom N index es := by
  induction es generalizing es' index with
  | nil => rw [List.map_eq_nil_iff.1 h]
  | cons e es ih =>
      obtain ⟨e', es', rfl, he, hes⟩ := List.map_eq_cons_iff.1 h
      rw [readAreasFrom_cons, readAreasFrom_cons, readArea_congr he, ih hes]

def InLabel (names : List String) : Prop := ∃ root, names = ["prefix", "area", root]

def InBound (names : List String) : Prop := ∃ (b : Bound) (root : String), names = [b.tag, "area", root]

theorem areasOf_recut (h : Recut old new names root root')
    (hplace : InLabel names ∨ InBound names → trimmed new = trimmed old) : areasOf root' = areasOf root := by
  have hview : (root'.childrenNamed "area").map (areaView partText) =
      (root.childrenNamed "area").map (areaView partText) := by
    refine (map_areas_recut h partText).2 fun tag hnames => ?_
    unfold partText
    split
    · rename_i htag
      rw [hplace]
      rcases htag with rfl | hbound
      · exact .inl ⟨_, hnames⟩
      · obtain ⟨b, hb⟩ := Option.isSome_iff_exists.1 hbound
        obtain rfl := ofTag?_eq_some.1 hb
        exact .inr ⟨b, _, hnames⟩
    · rfl
  rw [areasOf, areasOf, dimensions_congr h.name_eq h.attributes_eq]
  simp only [readAreasFrom_congr hview]

end Areas

section Readings

variable {old new : String} {names : List String} {e e' root root' c c' : Element}
  {es es' : List Element} {N index : Nat}
  {d d' : Draft} {a : Area} {l : AreaList}

def partReading (tag : String) (text : List Char) : Option (List Char) × Option Float :=
  (if tag = "prefix" then some text else none, (Bound.ofTag? tag).bind fun _ => readFloat? text)

theorem role?_congr (hname : c'.name = c.name) (hattributes : c'.attributes = c.attributes) : role? c' = role? c := by
  rw [role?, role?, dimension?, dimension?, Element.attribute?, Element.attribute?, hname, hattributes]

theorem add_ok_congr (h : childView partReading c' = childView partReading c) (hd : d.add N index c = .ok d') :
    d.add N index c' = .ok d' := by
  obtain ⟨hname, hattributes, hreading⟩ := childView_eq_iff.1 h
  have hrole := role?_congr hname hattributes
  obtain ⟨-, htakes⟩ := add_eq_ok hd
  cases htakes with
  | label tag =>
      have htrimmed : trimmed c'.leadingText = trimmed c.leadingText := by
        simpa [partReading, tag] using congrArg Prod.fst hreading
      rw [add_label (hname.trans tag), htrimmed]
  | other tag => rw [add_other (hrole.trans tag)]
  | bound b n v role small value finite =>
      obtain ⟨htag, hdimension⟩ := role?_eq_bound.1 (hrole.trans role)
      have hvalue : readFloat? (trimmed c'.leadingText) = some v := by
        rw [← value]
        simpa [partReading, ← hname, ofTag?_eq_some.2 htag] using congrArg Prod.snd hreading
      rw [add_bound htag, boundDimension_eq_ok.2 ⟨hdimension, small⟩, number_of_hasNumber hvalue finite]
      rfl

theorem describedArea_ok_congr (h : areaView partReading e' = areaView partReading e)
    (ha : describedArea N index e = .ok a) : describedArea N index e' = .ok a := by
  have hfold (cs cs' : List Element) (d d' : Draft)
      (h : cs'.map (childView partReading) = cs.map (childView partReading))
      (hd : cs.foldlM (Draft.add N index) d = .ok d') : cs'.foldlM (Draft.add N index) d = .ok d' := by
    induction cs generalizing cs' d with
    | nil => rwa [List.map_eq_nil_iff.1 h]
    | cons c cs ih =>
        obtain ⟨c', cs', rfl, hc, hcs⟩ := List.map_eq_cons_iff.1 h
        obtain ⟨d₁, hd₁, hd⟩ := foldlM_cons_eq_ok.1 hd
        exact foldlM_cons_eq_ok.2 ⟨d₁, add_ok_congr hc hd₁, ih cs' d₁ hcs hd⟩
  rw [describedArea_eq] at ha ⊢
  obtain ⟨d, hd, hfinish⟩ := bind_eq_ok.1 ha
  exact bind_eq_ok.2 ⟨d, hfold e.elements e'.elements {} d h hd, hfinish⟩

/-- No two children have the same role. -/
def Unrepeated (es : List Element) : Prop := ∀ r, (inRole es r).length ≤ 1

theorem Unrepeated.inRole_eq (h : Unrepeated es) (hc : c ∈ es) {r : Role} (hr : role? c = some r) :
    inRole es r = [c] := by
  have hmem : c ∈ inRole es r := mem_inRole.2 ⟨hc, hr⟩
  obtain ⟨x, hx⟩ := List.length_eq_one_iff.1 (le_antisymm (h r) (List.length_pos_of_mem hmem))
  rw [hx, List.mem_singleton] at hmem
  rw [hx, hmem]

theorem partReading_of_describes (hd : Described N es) (ha : Describes N es a) (ha' : Describes N es' a)
    (honce : Unrepeated es) (honce' : Unrepeated es') (hc : c ∈ es) (hc' : c' ∈ es') (hname : c'.name = c.name)
    (hattributes : c'.attributes = c.attributes) :
    partReading c.name (trimmed c'.leadingText) = partReading c.name (trimmed c.leadingText) := by
  have hrole := role?_congr hname hattributes
  refine Prod.ext ?_ ?_
  · by_cases hlabel : c.name = "prefix"
    · have hr := role?_eq_label.2 hlabel
      have hlast : lastLabel? es' = lastLabel? es := ha'.label.trans ha.label.symm
      rw [lastLabel?, lastLabel?, honce.inRole_eq hc hr, honce'.inRole_eq hc' (hrole.trans hr)] at hlast
      have htext : trimmed c'.leadingText = trimmed c.leadingText := String.ofList_injective (Option.some.inj hlast)
      simp [partReading, hlabel, htext]
    · simp [partReading, hlabel]
  · cases hb : Bound.ofTag? c.name with
    | none => simp [partReading, hb]
    | some b =>
        have htag := ofTag?_eq_some.1 hb
        -- a bound that was taken in has a dimension, and is the only one for it
        obtain ⟨⟨n, hn, hdimension⟩, -⟩ := hd.proper c hc ⟨b, htag⟩
        have hr := role?_eq_bound.2 ⟨htag, hdimension⟩
        have hall := (ha'.bounds b).symm.trans (ha.bounds b)
        have hlast : lastBound? es' b n = lastBound? es b n := List.map_inj_left.1 hall n (List.mem_range.2 hn)
        rw [lastBound?, lastBound?, honce.inRole_eq hc hr, honce'.inRole_eq hc' (hrole.trans hr)] at hlast
        simpa [partReading, hb] using hlast

def shape (e : Element) : List (String × List Xml.Attribute × Unit) := areaView (fun _ _ => ()) e

theorem unrepeated_of_shape (h : shape e' = shape e) (honce : Unrepeated e.elements) : Unrepeated e'.elements := by
  intro r
  have hroles : e'.elements.map role? = e.elements.map role? := by
    refine map_eq_of_map_eq h fun c _ c' _ hview => ?_
    obtain ⟨hname, hattributes, -⟩ := childView_eq_iff.1 hview
    exact role?_congr hname hattributes
  have hlength (es : List Element) : (inRole es r).length = (es.map role?).countP (· = some r) := by
    rw [inRole, ← List.countP_eq_length_filter, List.countP_map]
    rfl
  rw [hlength, hroles, ← hlength]
  exact honce r

theorem areaView_of_describes (h : shape e' = shape e) (honce : Unrepeated e.elements)
    (ha : Described N e.elements ∧ Describes N e.elements a) (ha' : Describes N e'.elements a) :
    areaView partReading e' = areaView partReading e := by
  refine map_eq_of_map_eq h fun c hc c' hc' hview => ?_
  obtain ⟨hname, hattributes, -⟩ := childView_eq_iff.1 hview
  have hreading := partReading_of_describes ha.1 ha.2 ha' honce (unrepeated_of_shape h honce) hc hc' hname hattributes
  exact childView_eq_iff.2 ⟨hname, hattributes, hreading⟩

theorem describes_iff_areaView (h : shape e' = shape e) (honce : Unrepeated e.elements)
    (ha : Described N e.elements ∧ Describes N e.elements a) :
    Described N e'.elements ∧ Describes N e'.elements a ↔ areaView partReading e' = areaView partReading e := by
  constructor
  · rintro ⟨-, ha'⟩
    exact areaView_of_describes h honce ha ha'
  · intro hview
    have harea : describedArea N 0 e = .ok a := describedArea_eq_ok.2 ha
    exact describedArea_eq_ok.1 (describedArea_ok_congr hview harea)

theorem forall₂_describes_iff {areas : List Area} (hshape : es'.map shape = es.map shape)
    (honce : ∀ e ∈ es, Unrepeated e.elements)
    (h : List.Forall₂ (fun e a => Described N e.elements ∧ Describes N e.elements a) es areas) :
    List.Forall₂ (fun e a => Described N e.elements ∧ Describes N e.elements a) es' areas ↔
      es'.map (areaView partReading) = es.map (areaView partReading) := by
  induction h generalizing es' with
  | nil =>
      rw [List.map_eq_nil_iff.1 hshape]
      exact iff_of_true .nil rfl
  | cons ha _ ih =>
      obtain ⟨e', es', rfl, he, hes⟩ := List.map_eq_cons_iff.1 hshape
      obtain ⟨honce, hrest⟩ := List.forall_mem_cons.1 honce
      rw [List.forall₂_cons, List.map_cons, List.map_cons, List.cons.injEq, ih hes hrest,
        describes_iff_areaView he honce ha]

theorem areasOf_recut_eq_ok (h : Recut old new names root root') (hl : areasOf root = .ok l)
    (honce : ∀ e ∈ root.childrenNamed "area", Unrepeated e.elements) : areasOf root' = .ok l ↔
      ∀ tag, names = [tag, "area", root.name] → partReading tag (trimmed new) = partReading tag (trimmed old) := by
  rw [← map_areas_recut h partReading]
  have hshape : (root'.childrenNamed "area").map shape = (root.childrenNamed "area").map shape :=
    (map_areas_recut h fun _ _ => ()).2 fun _ _ => rfl
  have hdim := dimensions_congr h.name_eq h.attributes_eq
  cases hN : dimensions root with
  | error err =>
      rw [areasOf, hN] at hl
      cases hl
  | ok N =>
      obtain ⟨hdims, hareas⟩ := (areasOf_eq_ok hN).1 hl
      rw [areasOf_eq_ok (hdim.trans hN), forall₂_describes_iff hshape honce hareas, and_iff_right hdims]

theorem readings_iff {x y : List Char} {name : String} (hlast : names.getLast? = some name) :
    (∀ tag, names = [tag, "area", name] → partReading tag x = partReading tag y) ↔
      (InLabel names → x = y) ∧ (InBound names → readFloat? x = readFloat? y) := by
  constructor
  · intro h
    constructor
    · rintro ⟨root, rfl⟩
      obtain rfl : root = name := Option.some.inj hlast
      simpa [partReading] using congrArg Prod.fst (h "prefix" rfl)
    · rintro ⟨b, root, rfl⟩
      obtain rfl : root = name := Option.some.inj hlast
      have htag : Bound.ofTag? b.tag = some b := ofTag?_eq_some.2 rfl
      simpa [partReading, htag] using congrArg Prod.snd (h b.tag rfl)
  · rintro ⟨hlabel, hbound⟩ tag rfl
    refine Prod.ext ?_ ?_
    · by_cases htag : tag = "prefix"
      · subst htag
        rw [hlabel ⟨name, rfl⟩]
      · simp [partReading, htag]
    · cases hb : Bound.ofTag? tag with
      | none => simp [partReading, hb]
      | some b =>
          obtain rfl := ofTag?_eq_some.1 hb
          simp [partReading, hb, hbound ⟨b, name, rfl⟩]

end Readings

section Comments

variable {root : Element}

/-- A comment in a document that is well formed only ever hides what follows it in the text of one element. The points
stay the same, and so does an error, unless this element is a coordinate of a listed node and its text up to the comment
differs, blanks around it aside; if the document was accepted, they stay the same exactly if the text up to the comment
is the same number. The same holds for areas, with bounds and labels in the place of coordinates. -/
theorem comment_hides_text_behind_it (nodes : Remark false) (areas : Remark true) :
    (∀ root, Xml.parse false nodes.plain = .ok root → ∃ root' p old, nodes.Effect root root' p old ∧
      ((InCoordinate p.names → trimmed p.leadingText = trimmed old) → readPoints nodes.text = readPoints nodes.plain) ∧
      ∀ s, readPoints nodes.plain = .ok s → (readPoints nodes.text = .ok s ↔
        (InCoordinate p.names → readFloat? (trimmed p.leadingText) = readFloat? (trimmed old)))) ∧
    ∀ root, Xml.parse true areas.plain = .ok root → ∃ root' p old, areas.Effect root root' p old ∧
      ((InLabel p.names ∨ InBound p.names → trimmed p.leadingText = trimmed old) →
        readAreas areas.text = readAreas areas.plain) ∧
      ∀ l, readAreas areas.plain = .ok l → (∀ e ∈ root.childrenNamed "area", Unrepeated e.elements) →
        (readAreas areas.text = .ok l ↔ (InLabel p.names → trimmed p.leadingText = trimmed old) ∧
          (InBound p.names → readFloat? (trimmed p.leadingText) = readFloat? (trimmed old))) := by
  constructor
  · intro root hroot
    obtain ⟨root', p, old, heffect⟩ := nodes.exists_effect hroot
    refine ⟨root', p, old, heffect, ?_⟩
    rw [readPoints_of_parse (parse_eq_ok.2 hroot), readPoints_of_parse (parse_eq_ok.2 heffect.parses)]
    rcases heffect.trees with ⟨rfl, rfl⟩ | hrecut
    · exact ⟨fun _ => rfl, fun s hs => iff_of_true hs fun _ => rfl⟩
    · exact ⟨pointsOf_recut hrecut, fun s hs => pointsOf_recut_eq_ok hrecut hs⟩
  · intro root hroot
    obtain ⟨root', p, old, heffect⟩ := areas.exists_effect hroot
    refine ⟨root', p, old, heffect, ?_⟩
    rw [readAreas_of_parse (parse_eq_ok.2 hroot), readAreas_of_parse (parse_eq_ok.2 heffect.parses)]
    rcases heffect.trees with ⟨rfl, rfl⟩ | hrecut
    · exact ⟨fun _ => rfl, fun l hl _ => iff_of_true hl ⟨fun _ => rfl, fun _ => rfl⟩⟩
    · refine ⟨areasOf_recut hrecut, fun l hl honce => ?_⟩
      rw [areasOf_recut_eq_ok hrecut hl honce]
      exact readings_iff hrecut.getLast?_names

def unitRemark : Remark false where
  front := []
  before := "<nodelist dimensions='1'>".toList ++ ("<node>".toList ++ ("<coord>".toList ++ ("12".toList ++
    ("<unit/>".toList ++ []))))
  after := "cm</coord></node></nodelist>".toList
  entities := []
  tokens := [.start ⟨"", "nodelist"⟩ [⟨⟨"", "dimensions"⟩, ['1']⟩] .opened, .start ⟨"", "node"⟩ [] .opened,
    .start ⟨"", "coord"⟩ [] .opened, .text ['1', '2'], .start ⟨"", "unit"⟩ [] .closed]
  raw := ['c']
  opening := by decide +kernel
  place := .next (by decide +kernel) (by simp) (by decide) (.next (by decide +kernel) (by simp) (by decide)
    (.next (by decide +kernel) (by simp) (by decide) (.next (by decide +kernel) (by simp) (by decide)
      (.next (by decide +kernel) (by simp) (by decide) (.edge (by decide) _)))))
  legal := by decide

def areaRemark : Remark true where
  front := "<!DOCTYPE list SYSTEM ''>".toList
  before := "<list dimensions='1'>".toList ++ ("<area>".toList ++ [])
  after := "<max dimension='0'>2</max><min dimension='0'>1</min><prefix>0</prefix></area></list>".toList
  entities := []
  tokens := [.start ⟨"", "list"⟩ [⟨⟨"", "dimensions"⟩, ['1']⟩] .opened, .start ⟨"", "area"⟩ [] .opened]
  raw := ['c']
  opening := by decide +kernel
  place := .next (by decide +kernel) (by simp) (by decide) (.next (by decide +kernel) (by simp) (by decide)
    (.edge (by decide) _))
  legal := by decide

theorem exists_ok_of_isSome {ε α : Type} {x : Except ε α} (h : x.toOption.isSome = true) : ∃ a, x = .ok a := by
  cases x with
  | error e => cases h
  | ok a => exact ⟨a, rfl⟩

theorem comment_hides_text_behind_it_elsewhere :
    readPoints unitRemark.text = readPoints unitRemark.plain ∧
      readAreas areaRemark.text = readAreas areaRemark.plain := by
  obtain ⟨hpoints, hareas⟩ := comment_hides_text_behind_it unitRemark areaRemark
  constructor
  · have hparses : (Xml.parse false unitRemark.plain).toOption.isSome = true := by decide +kernel
    obtain ⟨root, hroot⟩ := exists_ok_of_isSome hparses
    obtain ⟨root', p, old, heffect, hsame, -⟩ := hpoints root hroot
    have hfixed : p.Fixed := by
      have hrun : ((unitRemark.tokens.foldlM (Progress.take unitRemark.entities) {}).toOption.map fun p =>
          p.frames.head?.any fun f => f.reversed.any fun n => n.element?.isSome) = some true := by decide +kernel
      rw [heffect.reached] at hrun
      obtain ⟨f, hf, hany⟩ := (Option.any_eq_true _ _).1 (Option.some.inj hrun)
      obtain ⟨n, hn, helement⟩ := List.any_eq_true.1 hany
      refine ⟨f, hf, n, hn, ?_⟩
      rintro s rfl
      cases helement
    exact hsame fun _ => by rw [heffect.complete hfixed]
  · have hparses : (Xml.parse true areaRemark.plain).toOption.isSome = true := by decide +kernel
    obtain ⟨root, hroot⟩ := exists_ok_of_isSome hparses
    obtain ⟨root', p, old, heffect, hsame, -⟩ := hareas root hroot
    have hnames : p.names = ["area", "list"] := by
      have hrun : (areaRemark.tokens.foldlM (Progress.take areaRemark.entities) {}).toOption.map Progress.names =
          some ["area", "list"] := by decide +kernel
      rw [heffect.reached] at hrun
      exact Option.some.inj hrun
    refine hsame ?_
    rw [hnames]
    rintro (⟨_, h⟩ | ⟨_, _, h⟩) <;> simp at h

def digitRemark : Remark false where
  front := []
  before := "<nodelist dimensions='1'>".toList ++ ("<node>".toList ++ ("<coord>".toList ++ "1".toList))
  after := "2".toList ++ "</coord></node></nodelist>".toList
  entities := []
  tokens := [.start ⟨"", "nodelist"⟩ [⟨⟨"", "dimensions"⟩, ['1']⟩] .opened, .start ⟨"", "node"⟩ [] .opened,
    .start ⟨"", "coord"⟩ [] .opened, .text ['1']]
  raw := ['c']
  opening := by decide +kernel
  place := .next (by decide +kernel) (by simp) (by decide) (.next (by decide +kernel) (by simp) (by decide)
    (.next (by decide +kernel) (by simp) (by decide) (.text (by decide) (by decide) (by decide) (by decide +kernel)
      (by decide +kernel))))
  legal := by decide

theorem comment_changes_number :
    digitRemark.plain = "<nodelist dimensions='1'><node><coord>12</coord></node></nodelist>" ∧
    digitRemark.text = "<nodelist dimensions='1'><node><coord>1<!--c-->2</coord></node></nodelist>" ∧
    ((readPoints digitRemark.plain).toOption.map fun s => s.points.map (·.map Float.toBits)) =
      some [[0x4028000000000000]] ∧
    ((readPoints digitRemark.text).toOption.map fun s => s.points.map (·.map Float.toBits)) =
      some [[0x3ff0000000000000]] ∧
    readPoints digitRemark.text ≠ readPoints digitRemark.plain := by
  have hplain : ((readPoints digitRemark.plain).toOption.map fun s => s.points.map (·.map Float.toBits)) =
      some [[0x4028000000000000]] := by decide +kernel
  have htext : ((readPoints digitRemark.text).toOption.map fun s => s.points.map (·.map Float.toBits)) =
      some [[0x3ff0000000000000]] := by decide +kernel
  refine ⟨by decide, by decide, hplain, htext, fun hsame => ?_⟩
  rw [hsame, hplain] at htext
  exact absurd htext (by decide)

end Comments

end Document

end Bisection
