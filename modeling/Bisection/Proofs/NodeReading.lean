import Mathlib
import Bisection.Proofs.AreaReading
import Bisection.Proofs.PointRuns

namespace Bisection

section Traversal

variable {ε α β : Type} {f : α → Except ε β} {l : List α}

theorem mapM_eq_ok {bs : List β} : l.mapM f = .ok bs ↔ List.Forall₂ (fun a b => f a = .ok b) l bs := by
  induction l generalizing bs with
  | nil =>
      rw [List.mapM_nil, List.forall₂_nil_left_iff]
      constructor
      · rintro ⟨⟩
        rfl
      · rintro rfl
        rfl
  | cons a l ih =>
      rw [List.mapM_cons, List.forall₂_cons_left_iff]
      refine bind_eq_ok.trans ?_
      constructor
      · rintro ⟨b, hb, h⟩
        obtain ⟨rest, hrest, h⟩ := bind_eq_ok.1 h
        cases h
        exact ⟨b, rest, hb, ih.1 hrest, rfl⟩
      · rintro ⟨b, rest, hb, hrest, rfl⟩
        exact ⟨b, hb, bind_eq_ok.2 ⟨rest, ih.2 hrest, rfl⟩⟩

theorem mapM_eq_error {e : ε} : l.mapM f = .error e ↔
    ∃ before a after, l = before ++ a :: after ∧ (∀ x ∈ before, ∃ b, f x = .ok b) ∧ f a = .error e := by
  induction l with
  | nil =>
      rw [List.mapM_nil]
      constructor
      · rintro ⟨⟩
      · rintro ⟨before, a, after, h, -⟩
        simp at h
  | cons x l ih =>
      rw [List.mapM_cons]
      refine bind_eq_error.trans ?_
      constructor
      · rintro (h | ⟨b, hb, h⟩)
        · exact ⟨[], x, l, rfl, by simp, h⟩
        · have hrest : l.mapM f = .error e := by
            rcases bind_eq_error.1 h with h | ⟨bs, -, h⟩
            · exact h
            · cases h
          obtain ⟨before, a, after, rfl, hbefore, ha⟩ := ih.1 hrest
          exact ⟨x :: before, a, after, rfl, List.forall_mem_cons.2 ⟨⟨b, hb⟩, hbefore⟩, ha⟩
      · rintro ⟨before, a, after, hl, hbefore, ha⟩
        cases before with
        | nil =>
            cases hl
            exact Or.inl ha
        | cons y before =>
            cases hl
            obtain ⟨⟨b, hb⟩, hbefore⟩ := List.forall_mem_cons.1 hbefore
            have hrest : (before ++ a :: after).mapM f = .error e := ih.2 ⟨before, a, after, rfl, hbefore, ha⟩
            exact Or.inr ⟨b, hb, bind_eq_error.2 (Or.inl hrest)⟩

theorem exists_forall₂ {R : α → β → Prop} : (∃ bs, List.Forall₂ R l bs) ↔ ∀ a ∈ l, ∃ b, R a b := by
  induction l with
  | nil => exact ⟨fun _ a ha => absurd ha List.not_mem_nil, fun _ => ⟨[], .nil⟩⟩
  | cons a l ih =>
      rw [List.forall_mem_cons, ← ih]
      constructor
      · rintro ⟨bs, h⟩
        obtain ⟨b, rest, hb, hrest, -⟩ := List.forall₂_cons_left_iff.1 h
        exact ⟨⟨b, hb⟩, rest, hrest⟩
      · rintro ⟨⟨b, hb⟩, rest, hrest⟩
        exact ⟨b :: rest, .cons hb hrest⟩

end Traversal

namespace Document

open Xml (Element)

section Places

variable {parent name : String} {n : Xml.Node} {ns children : List Xml.Node} {attributes : List Xml.Attribute}
  {place : List Nat} {e : Element}

/-- A `node` directly inside a `nodelist`, at some depth in the content of an element with the given name. Its place
tells the number of the child to go to at every level, so that places are ordered as the document is. -/
inductive Listed : String → List Xml.Node → List Nat → Element → Prop
  | child {ns : List Xml.Node} {i : Nat} {attributes : List Xml.Attribute} {children : List Xml.Node}
      (here : ns[i]? = some (.element "node" attributes children)) :
      Listed "nodelist" ns [i] ⟨"node", attributes, children⟩
  | deeper {parent name : String} {ns children : List Xml.Node} {i : Nat} {attributes : List Xml.Attribute}
      {place : List Nat} {e : Element} (here : ns[i]? = some (.element name attributes children))
      (inside : Listed name children place e) : Listed parent ns (i :: place) e

/-- All listed nodes with their places, in the order of the document. -/
structure Listing (parent : String) (ns : List Xml.Node) (entries : List (List Nat × Element)) : Prop where
  mem_iff : ∀ place e, (place, e) ∈ entries ↔ Listed parent ns place e
  ordered : entries.Pairwise fun x y => x.1 < y.1

theorem Listed.ne_nil (h : Listed parent ns place e) : place ≠ [] := by
  cases h with
  | child => exact List.cons_ne_nil _ _
  | deeper => exact List.cons_ne_nil _ _

def further : List Nat → List Nat
  | [] => []
  | i :: place => (i + 1) :: place

theorem further_lt {p q : List Nat} (h : p < q) : further p < further q := by
  cases h with
  | nil => exact .nil
  | rel h => exact .rel (Nat.succ_lt_succ h)
  | cons h => exact .cons h

theorem lt_further {p q : List Nat} (hq : q ≠ []) : 0 :: p < further q := by
  obtain ⟨i, q, rfl⟩ := List.exists_cons_of_ne_nil hq
  exact .rel (Nat.succ_pos i)

theorem Listed.head_eq (h : Listed parent [n] place e) : ∃ q, place = 0 :: q := by
  cases h with
  | @child _ i _ _ here =>
      cases i with
      | zero => exact ⟨[], rfl⟩
      | succ i => cases here
  | @deeper _ _ _ _ i _ q _ here inside =>
      cases i with
      | zero => exact ⟨q, rfl⟩
      | succ i => cases here

theorem listed_cons : Listed parent (n :: ns) place e ↔
    Listed parent [n] place e ∨ ∃ q, place = further q ∧ Listed parent ns q e := by
  constructor
  · intro h
    cases h with
    | @child _ i _ _ here =>
        cases i with
        | zero => exact Or.inl (.child here)
        | succ i => exact Or.inr ⟨[i], rfl, .child here⟩
    | @deeper _ _ _ _ i _ q _ here inside =>
        cases i with
        | zero => exact Or.inl (.deeper here inside)
        | succ i => exact Or.inr ⟨i :: q, rfl, .deeper here inside⟩
  · rintro (h | ⟨q, rfl, h⟩)
    · obtain ⟨q, rfl⟩ := h.head_eq
      cases h with
      | child here => exact .child here
      | deeper here inside => exact .deeper here inside
    · cases h with
      | child here => exact .child here
      | deeper here inside => exact .deeper here inside

theorem listed_element : Listed parent [.element name attributes children] place e ↔
    (place = [0] ∧ name = "node" ∧ parent = "nodelist" ∧ e = ⟨name, attributes, children⟩) ∨
      ∃ q, place = 0 :: q ∧ Listed name children q e := by
  constructor
  · intro h
    obtain ⟨q, rfl⟩ := h.head_eq
    cases h with
    | child here =>
        cases here
        exact Or.inl ⟨rfl, rfl, rfl, rfl⟩
    | deeper here inside =>
        cases here
        exact Or.inr ⟨q, rfl, inside⟩
  · rintro (⟨rfl, rfl, rfl, rfl⟩ | ⟨q, rfl, h⟩)
    · exact .child rfl
    · exact .deeper rfl h

namespace Listing

variable {entries more : List (List Nat × Element)}

theorem nil (parent : String) : Listing parent [] [] := by
  refine ⟨fun place e => iff_of_false List.not_mem_nil fun h => ?_, .nil⟩
  cases h with
  | child here => cases here
  | deeper here => cases here

theorem of_element? (h : n.element? = none) : Listing parent [n] [] := by
  refine ⟨fun place e => iff_of_false List.not_mem_nil fun hl => ?_, .nil⟩
  obtain ⟨q, rfl⟩ := hl.head_eq
  cases hl with
  | child here =>
      cases here
      cases h
  | deeper here =>
      cases here
      cases h

theorem cons (hn : Listing parent [n] entries) (hns : Listing parent ns more) :
    Listing parent (n :: ns) (entries ++ more.map fun x => (further x.1, x.2)) := by
  constructor
  · intro place e
    rw [listed_cons, List.mem_append, hn.mem_iff]
    refine or_congr_right ?_
    simp only [List.mem_map, Prod.exists, Prod.mk.injEq, hns.mem_iff]
    constructor
    · rintro ⟨q, x, hq, rfl, rfl⟩
      exact ⟨q, rfl, hq⟩
    · rintro ⟨q, rfl, hq⟩
      exact ⟨q, e, hq, rfl, rfl⟩
  · rw [List.pairwise_append, List.pairwise_map]
    refine ⟨hn.ordered, hns.ordered.imp further_lt, ?_⟩
    -- the places in the first child begin with 0, the others with a greater number
    rintro ⟨p, x⟩ hp _ hy
    obtain ⟨⟨q, y⟩, hq, rfl⟩ := List.mem_map.1 hy
    obtain ⟨p, rfl⟩ := ((hn.mem_iff _ _).1 hp).head_eq
    exact lt_further ((hns.mem_iff _ _).1 hq).ne_nil

theorem element (h : Listing name children entries) : Listing parent [.element name attributes children]
    ((if name = "node" ∧ parent = "nodelist" then [([0], ⟨name, attributes, children⟩)] else []) ++
      entries.map fun x => (0 :: x.1, x.2)) := by
  have hbelow : ∀ x ∈ entries.map fun x => (0 :: x.1, x.2), [0] < x.1 := by
    intro x hx
    obtain ⟨⟨q, y⟩, hq, rfl⟩ := List.mem_map.1 hx
    obtain ⟨i, q, rfl⟩ := List.exists_cons_of_ne_nil ((h.mem_iff _ _).1 hq).ne_nil
    exact .cons .nil
  constructor
  · intro place e
    rw [listed_element, List.mem_append]
    refine or_congr ?_ ?_
    · split
      · rename_i hlisted
        simp [hlisted]
      · rename_i hlisted
        simp only [List.not_mem_nil, false_iff]
        rintro ⟨-, hname, hparent, -⟩
        exact hlisted ⟨hname, hparent⟩
    · simp only [List.mem_map, Prod.exists, Prod.mk.injEq, h.mem_iff]
      constructor
      · rintro ⟨q, x, hq, rfl, rfl⟩
        exact ⟨q, rfl, hq⟩
      · rintro ⟨q, rfl, hq⟩
        exact ⟨q, e, hq, rfl, rfl⟩
  · rw [List.pairwise_append, List.pairwise_map]
    refine ⟨?_, h.ordered.imp fun hlt => .cons hlt, ?_⟩
    · split <;> simp
    · intro x hx y hy
      split at hx
      · rw [List.mem_singleton.1 hx]
        exact hbelow y hy
      · cases hx

end Listing

mutual

theorem exists_listing_node (parent : String) : (n : Xml.Node) →
    ∃ entries, Listing parent [n] entries ∧ entries.map Prod.snd = listedNodes parent n
  | .element name attributes children => by
      obtain ⟨entries, h, hnodes⟩ := exists_listing name children
      refine ⟨_, h.element, ?_⟩
      rw [listedNodes, ← hnodes, List.map_append, List.map_map]
      congr 1
      by_cases hlisted : name = "node" ∧ parent = "nodelist"
      · simp [hlisted]
      · rw [if_neg hlisted, if_neg (by simpa using hlisted)]
        rfl
  | .text content => ⟨[], .of_element? rfl, rfl⟩
  | .comment content => ⟨[], .of_element? rfl, rfl⟩
  | .instruction target content => ⟨[], .of_element? rfl, rfl⟩

theorem exists_listing (parent : String) : (ns : List Xml.Node) →
    ∃ entries, Listing parent ns entries ∧ entries.map Prod.snd = listedNodesIn parent ns
  | [] => ⟨[], .nil parent, rfl⟩
  | n :: ns => by
      obtain ⟨entries, hn, hnode⟩ := exists_listing_node parent n
      obtain ⟨more, hns, hnodes⟩ := exists_listing parent ns
      refine ⟨_, hn.cons hns, ?_⟩
      rw [listedNodesIn, ← hnode, ← hnodes, List.map_append, List.map_map]
      rfl

end

end Places

section Nodes

variable {N index : Nat} {e : Element} {es : List Element} {p : Point} {s t : PointSet} {err : Error}

def coords (e : Element) : List Element := e.childrenNamed "coord"

def CompleteNode (N : Nat) (e : Element) : Prop := (coords e).length = N ∧ ∀ c ∈ coords e, HasNumber c

def Locates (e : Element) (p : Point) : Prop :=
  List.Forall₂ (fun c v => readFloat? (trimmed c.leadingText) = some v ∧ v.isFinite = true) (coords e) p

/-- Why the node with the given index is refused: for its first coordinate that is no finite number, or else for their
count. -/
inductive RefusedNode (N index : Nat) (e : Element) : Error → Prop
  | number (before : List Element) (c : Element) (after : List Element) (place : coords e = before ++ c :: after)
      (first : ∀ x ∈ before, HasNumber x) (bad : ¬HasNumber c) :
      RefusedNode N index e (.invalidNumber (.coordinate index) (String.ofList (trimmed c.leadingText)))
  | count (numbers : ∀ c ∈ coords e, HasNumber c) (other : (coords e).length ≠ N) :
      RefusedNode N index e (.dimensionMismatch index N (coords e).length)

theorem number_eq_ok {place : NumberPlace} {c : Element} {v : Float} :
    number place c = .ok v ↔ readFloat? (trimmed c.leadingText) = some v ∧ v.isFinite = true := by
  constructor
  · intro h
    by_cases hc : HasNumber c
    · obtain ⟨w, hw, hfin⟩ := hc
      rw [number_of_hasNumber hw hfin] at h
      cases h
      exact ⟨hw, hfin⟩
    · rw [number_of_not hc] at h
      cases h
  · rintro ⟨hv, hfin⟩
    exact number_of_hasNumber hv hfin

theorem number_eq_error {place : NumberPlace} {c : Element} : number place c = .error err ↔
    ¬HasNumber c ∧ err = .invalidNumber place (String.ofList (trimmed c.leadingText)) := by
  constructor
  · intro h
    have hc : ¬HasNumber c := by
      rintro ⟨v, hv, hfin⟩
      rw [number_of_hasNumber hv hfin] at h
      cases h
    rw [number_of_not hc] at h
    cases h
    exact ⟨hc, rfl⟩
  · rintro ⟨hc, rfl⟩
    exact number_of_not hc

theorem coordinates_eq_ok : coordinates index e = .ok p ↔ Locates e p := by
  rw [coordinates, mapM_eq_ok]
  simp only [number_eq_ok]
  rfl

theorem coordinates_eq_error : coordinates index e = .error err ↔
    ∃ before c after, coords e = before ++ c :: after ∧ (∀ x ∈ before, HasNumber x) ∧ ¬HasNumber c ∧
      err = .invalidNumber (.coordinate index) (String.ofList (trimmed c.leadingText)) := by
  rw [coordinates, mapM_eq_error]
  simp only [number_eq_ok, number_eq_error]
  rfl

theorem Locates.length_eq (h : Locates e p) : p.length = (coords e).length := (List.Forall₂.length_eq h).symm

theorem Locates.hasNumber (h : Locates e p) : ∀ c ∈ coords e, HasNumber c := exists_forall₂.1 ⟨p, h⟩

theorem Locates.fits (h : Locates e p) (hlength : p.length = N) : PointSet.Fits N p := by
  refine ⟨hlength, fun v hv => ?_⟩
  obtain ⟨c, -, -, hfinite⟩ := exists_mem_of_forall₂ h v hv
  exact hfinite

theorem exists_locates : (∃ p, p.length = N ∧ Locates e p) ↔ CompleteNode N e := by
  constructor
  · rintro ⟨p, rfl, h⟩
    exact ⟨h.length_eq.symm, h.hasNumber⟩
  · rintro ⟨hlength, hnumbers⟩
    obtain ⟨p, h⟩ : ∃ p, Locates e p := exists_forall₂.2 hnumbers
    exact ⟨p, h.length_eq.trans hlength, h⟩

theorem addNodes_of_complete (h : CompleteNode s.dimensions e) (index : Nat) (rest : List Element) :
    ∃ p, p.length = s.dimensions ∧ Locates e p ∧
      addNodes s index (e :: rest) = addNodes { s with points := s.points ++ [p] } (index + 1) rest := by
  obtain ⟨p, hlength, hp⟩ := exists_locates.2 h
  refine ⟨p, hlength, hp, ?_⟩
  rw [addNodes_cons, coordinates_eq_ok.2 hp]
  simp only [Except.bind, if_pos hlength, PointSet.push_eq_ok.2 ⟨hp.fits hlength, rfl⟩]

theorem addNodes_of_refused (h : RefusedNode s.dimensions index e err) (rest : List Element) :
    addNodes s index (e :: rest) = .error err := by
  rw [addNodes_cons]
  cases h with
  | number before c after place first bad =>
      rw [coordinates_eq_error.2 ⟨before, c, after, place, first, bad, rfl⟩]
      rfl
  | count numbers other =>
      obtain ⟨p, hlength, hp⟩ := exists_locates.2 ⟨rfl, numbers⟩
      rw [coordinates_eq_ok.2 hp, ← hlength]
      exact if_neg (hlength ▸ other)

theorem exists_refusedNode (index : Nat) (h : ¬CompleteNode N e) : ∃ err, RefusedNode N index e err := by
  cases hcoords : coordinates index e with
  | error err =>
      obtain ⟨before, c, after, hplace, hfirst, hbad, rfl⟩ := coordinates_eq_error.1 hcoords
      exact ⟨_, .number before c after hplace hfirst hbad⟩
  | ok p =>
      have hnumbers := (coordinates_eq_ok.1 hcoords).hasNumber
      exact ⟨_, .count hnumbers fun hlength => h ⟨hlength, hnumbers⟩⟩

theorem RefusedNode.not_complete (h : RefusedNode N index e err) : ¬CompleteNode N e := by
  rintro ⟨hlength, hnumbers⟩
  cases h with
  | number before c after place first bad =>
      refine bad (hnumbers c ?_)
      rw [place]
      exact List.mem_append_right _ List.mem_cons_self
  | count _ other => exact other hlength

theorem points_of_addNodes (h : addNodes s index es = .ok t) :
    ∃ points, List.Forall₂ Locates es points ∧ t = { s with points := s.points ++ points } := by
  induction es generalizing s index with
  | nil =>
      cases h
      exact ⟨[], .nil, by rw [List.append_nil]⟩
  | cons e es ih =>
      by_cases he : CompleteNode s.dimensions e
      · obtain ⟨p, -, hp, hadd⟩ := addNodes_of_complete he index es
        rw [hadd] at h
        obtain ⟨points, hpoints, rfl⟩ := ih h
        exact ⟨p :: points, .cons hp hpoints, by simp⟩
      · obtain ⟨err, herr⟩ := exists_refusedNode index he
        rw [addNodes_of_refused herr] at h
        cases h

theorem exists_addNodes : (∃ t, addNodes s index es = .ok t) ↔ ∀ e ∈ es, CompleteNode s.dimensions e := by
  induction es generalizing s index with
  | nil => exact ⟨fun _ e he => absurd he List.not_mem_nil, fun _ => ⟨s, rfl⟩⟩
  | cons e es ih =>
      rw [List.forall_mem_cons]
      by_cases he : CompleteNode s.dimensions e
      · obtain ⟨p, -, -, hadd⟩ := addNodes_of_complete he index es
        rw [hadd, ih]
        exact ⟨fun h => ⟨he, h⟩, fun h => h.2⟩
      · obtain ⟨err, herr⟩ := exists_refusedNode index he
        rw [addNodes_of_refused herr]
        exact iff_of_false (by simp) fun h => he h.1

theorem addNodes_eq_error : addNodes s index es = .error err ↔
    ∃ before e after, es = before ++ e :: after ∧ (∀ x ∈ before, CompleteNode s.dimensions x) ∧
      RefusedNode s.dimensions (index + before.length) e err := by
  induction es generalizing s index with
  | nil =>
      constructor
      · rintro ⟨⟩
      · rintro ⟨before, e, after, h, -⟩
        simp at h
  | cons e es ih =>
      by_cases he : CompleteNode s.dimensions e
      · obtain ⟨p, -, -, hadd⟩ := addNodes_of_complete he index es
        rw [hadd, ih]
        constructor
        · rintro ⟨before, x, after, rfl, hbefore, hx⟩
          refine ⟨e :: before, x, after, rfl, List.forall_mem_cons.2 ⟨he, hbefore⟩, ?_⟩
          rwa [List.length_cons, Nat.add_comm before.length, ← Nat.add_assoc]
        · rintro ⟨before, x, after, hes, hbefore, hx⟩
          cases before with
          | nil =>
              cases hes
              exact absurd he hx.not_complete
          | cons y before =>
              cases hes
              rw [List.length_cons, Nat.add_comm before.length, ← Nat.add_assoc] at hx
              exact ⟨before, x, after, rfl, (List.forall_mem_cons.1 hbefore).2, hx⟩
      · constructor
        · intro h
          obtain ⟨err', herr⟩ := exists_refusedNode index he
          rw [addNodes_of_refused herr] at h
          cases h
          exact ⟨[], e, es, rfl, by simp, herr⟩
        · rintro ⟨before, x, after, hes, hbefore, hx⟩
          cases before with
          | nil =>
              cases hes
              exact addNodes_of_refused hx es
          | cons y before =>
              cases hes
              exact absurd (hbefore e List.mem_cons_self) he

end Nodes

section Documents

variable {N : Nat} {root : Element} {err : Error}

inductive RefusedDimensions (root : Element) : Error → Prop
  | missing (absent : root.attribute? "dimensions" = none) : RefusedDimensions root (.missingDimensions root.name)
  | invalid (text : String) (given : root.attribute? "dimensions" = some text)
      (bad : readNatural? (trimmed text) = none) : RefusedDimensions root (.invalidNumber .dimensions text)
  | zero (text : String) (given : root.attribute? "dimensions" = some text)
      (zero : readNatural? (trimmed text) = some 0) : RefusedDimensions root .zeroDimensions

theorem dimensions_eq_error : dimensions root = .error err ↔ RefusedDimensions root err := by
  constructor
  · intro h
    unfold dimensions at h
    split at h
    · rename_i hattr
      cases h
      exact .missing hattr
    · rename_i text hattr
      split at h
      · rename_i hread
        cases h
        exact .invalid text hattr hread
      · rename_i hread
        cases h
        exact .zero text hattr hread
      · cases h
  · intro h
    cases h with
    | missing absent => rw [dimensions, absent]
    | invalid text given bad =>
        rw [dimensions, given]
        simp only [bad]
    | zero text given zero =>
        rw [dimensions, given]
        simp only [zero]

theorem pointsOf_eq (h : dimensions root = .ok N) : pointsOf root = addNodes ⟨N, []⟩ 0 (nodesOf root) := by
  obtain ⟨-, -, -, hpos⟩ := dimensions_eq_ok.1 h
  have hempty : PointSet.empty N = .ok ⟨N, []⟩ := if_neg hpos.ne'
  rw [pointsOf, h]
  simp only [bind, Except.bind, hempty]

theorem pointsOf_eq_error : pointsOf root = .error err ↔ RefusedDimensions root err ∨
    ∃ N, dimensions root = .ok N ∧ ∃ before e after, nodesOf root = before ++ e :: after ∧
      (∀ x ∈ before, CompleteNode N x) ∧ RefusedNode N before.length e err := by
  rw [← dimensions_eq_error]
  cases hdim : dimensions root with
  | error e =>
      have hpoints : pointsOf root = .error e := by
        rw [pointsOf, hdim]
        rfl
      simp [hpoints]
  | ok N =>
      rw [pointsOf_eq hdim, addNodes_eq_error]
      simp

theorem pointsOf_eq_error_iff (h : ∀ N index e, ¬RefusedNode N index e err) :
    pointsOf root = .error err ↔ RefusedDimensions root err := by
  rw [pointsOf_eq_error]
  refine or_iff_left ?_
  rintro ⟨N, -, before, e, after, -, -, he⟩
  exact h N before.length e he

theorem readPoints_of_parse {xml : String} {root : Element} (h : parse false xml = .ok root) :
    readPoints xml = pointsOf root := by
  rw [readPoints, h]
  rfl

/-- A node list needs a positive number of dimensions, and then is accepted exactly if all listed nodes are complete: it
has a point for each of them, in their order. Otherwise the first node that is not complete is refused, for its first
coordinate that is no finite number or else for their count; the set of points refuses none of them. The nodes that are
listed are the elements `node` directly inside a `nodelist`, in the order of the document. -/
theorem pointsOf_accepts_complete (root : Element) :
    (∀ tag, pointsOf root = .error (.missingDimensions tag) ↔
      root.attribute? "dimensions" = none ∧ tag = root.name) ∧
    (∀ text, pointsOf root = .error (.invalidNumber .dimensions text) ↔
      root.attribute? "dimensions" = some text ∧ readNatural? (trimmed text) = none) ∧
    (pointsOf root = .error .zeroDimensions ↔
      ∃ text, root.attribute? "dimensions" = some text ∧ readNatural? (trimmed text) = some 0) ∧
    (∀ text N, root.attribute? "dimensions" = some text → readNatural? (trimmed text) = some N → 0 < N →
      ((∃ s, pointsOf root = .ok s) ↔ ∀ e ∈ nodesOf root, CompleteNode N e) ∧
      (∀ s, pointsOf root = .ok s → s.dimensions = N ∧ List.Forall₂ Locates (nodesOf root) s.points) ∧
      ∀ err, pointsOf root = .error err ↔ ∃ before e after, nodesOf root = before ++ e :: after ∧
        (∀ x ∈ before, CompleteNode N x) ∧ RefusedNode N before.length e err) ∧
    (∀ index d, pointsOf root ≠ .error (.nonFiniteCoordinate index d)) ∧
    (∃ entries, entries.map Prod.snd = nodesOf root ∧ Listing root.name root.children entries) ∧
    ∀ xml, parse false xml = .ok root → readPoints xml = pointsOf root := by
  refine ⟨fun tag => ?_, fun text => ?_, ?_, fun text N hattr hread hpos => ?_, fun index d h => ?_, ?_,
    fun xml => readPoints_of_parse⟩
  · rw [pointsOf_eq_error_iff fun N index e h => by cases h]
    constructor
    · intro h
      cases h with
      | missing absent => exact ⟨absent, rfl⟩
    · rintro ⟨absent, rfl⟩
      exact .missing absent
  · rw [pointsOf_eq_error_iff fun N index e h => by cases h]
    constructor
    · intro h
      cases h with
      | invalid text given bad => exact ⟨given, bad⟩
    · rintro ⟨given, bad⟩
      exact .invalid text given bad
  · rw [pointsOf_eq_error_iff fun N index e h => by cases h]
    constructor
    · intro h
      cases h with
      | zero text given zero => exact ⟨text, given, zero⟩
    · rintro ⟨text, given, zero⟩
      exact .zero text given zero
  · rw [pointsOf_eq (dimensions_eq_ok.2 ⟨text, hattr, hread, hpos⟩)]
    refine ⟨exists_addNodes, fun s hs => ?_, fun err => ?_⟩
    · obtain ⟨points, hpoints, rfl⟩ := points_of_addNodes hs
      exact ⟨rfl, hpoints⟩
    · rw [addNodes_eq_error]
      simp only [Nat.zero_add]
  · rw [pointsOf_eq_error_iff fun N index e h => by cases h] at h
    cases h
  · obtain ⟨entries, hentries, hnodes⟩ := exists_listing root.name root.children
    exact ⟨entries, hnodes, hentries⟩

theorem pointsOf_accepts_complete_nested :
    let root : Element := ⟨"net", [⟨.none, "dimensions", " 1 "⟩], [.element "node" [] [.element "coord" [] []],
      .element "nodelist" [] [.text " ", .element "node" [] [.element "coord" [] [.text " 4e0 "],
        .element "nodelist" [] [.element "node" [] []]]]]⟩
    root.attribute? "dimensions" = some " 1 " ∧ readNatural? (trimmed " 1 ") = some 1 ∧
      pointsOf root = .error (.dimensionMismatch 1 1 0) ∧ ∃ before e after, nodesOf root = before ++ e :: after ∧
        (∀ x ∈ before, CompleteNode 1 x) ∧ RefusedNode 1 before.length e (.dimensionMismatch 1 1 0) := by
  intro root
  have hattr : root.attribute? "dimensions" = some " 1 " := rfl
  have hread : readNatural? (trimmed " 1 ") = some 1 := by decide
  have herror : pointsOf root = .error (.dimensionMismatch 1 1 0) := rfl
  obtain ⟨-, -, -, hnodes, -⟩ := pointsOf_accepts_complete root
  exact ⟨hattr, hread, herror, ((hnodes _ _ hattr hread Nat.one_pos).2.2 _).1 herror⟩

end Documents

end Document

end Bisection
