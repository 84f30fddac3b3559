import Mathlib
import Bisection.Proofs.AreaChildren
import Bisection.Proofs.Elements
import Bisection.Proofs.TextNodes

namespace Bisection.Xml

theorem Element.leadingText_congr {e e' : Element} (h : e'.children.head? = e.children.head?) :
    e'.leadingText = e.leadingText := by
  unfold leadingText
  cases he : e.children with
  | nil =>
      rw [he, List.head?_nil, List.head?_eq_none_iff] at h
      rw [h]
  | cons n ns =>
      rw [he, List.head?_cons, List.head?_eq_some_iff] at h
      obtain ⟨ns', h⟩ := h
      rw [h]
      cases n <;> rfl

/-- Two trees that differ in one element. It begins with the text `old` in the one and with `new` in the other, and has
the same name, attributes and elements in both. The names lead from it to the root. -/
inductive Recut (old new : String) : List String → Element → Element → Prop
  | here {e e' : Element} (name : e'.name = e.name) (attributes : e'.attributes = e.attributes)
      (elements : e'.elements = e.elements) (hold : e.leadingText = old) (hnew : e'.leadingText = new) :
      Recut old new [e.name] e e'
  | inside {names : List String} {c c' : Element} (h : Recut old new names c c') (name : String)
      (attributes : List Attribute) (before after : List Node) :
      Recut old new (names ++ [name]) ⟨name, attributes, before ++ c.node :: after⟩
        ⟨name, attributes, before ++ c'.node :: after⟩

namespace Frame

variable {f f' : Frame} {n : Node} {joining : Bool} {s : String}

def element (f : Frame) : Element := ⟨f.name.name, f.attributes, f.reversed.reverse⟩

def write (joining : Bool) (f : Frame) (s : String) : Frame := if joining then f.extend s else f.add (.text s)

def Fixed (f : Frame) : Prop := ∃ n ∈ f.reversed, ∀ s, n ≠ .text s

theorem write_cases (joining : Bool) (f : Frame) (s : String) : f.write joining s = f.add (.text s) ∨ ∃ t before,
    f.reversed = .text t :: before ∧ f.write joining s = { f with reversed := .text (t ++ s) :: before } := by
  unfold write extend
  split
  · split
    · rename_i t before hbefore
      exact .inr ⟨t, before, hbefore, rfl⟩
    · exact .inl rfl
  · exact .inl rfl

theorem write_head (joining : Bool) (f : Frame) (s : String) : (f.write joining s).name = f.name ∧
    (f.write joining s).scope = f.scope ∧ (f.write joining s).attributes = f.attributes := by
  obtain h | ⟨t, before, -, h⟩ := write_cases joining f s
  · rw [h]
    exact ⟨rfl, rfl, rfl⟩
  · rw [h]
    exact ⟨rfl, rfl, rfl⟩

theorem elements_eq (f : Frame) : f.element.elements = (f.reversed.filterMap Node.element?).reverse := by
  rw [element, Element.elements, List.filterMap_reverse]

theorem elements_write (joining : Bool) (f : Frame) (s : String) :
    (f.write joining s).element.elements = f.element.elements := by
  rw [elements_eq, elements_eq]
  obtain h | ⟨t, before, hbefore, h⟩ := write_cases joining f s
  · rw [h]
    rfl
  · rw [h, hbefore]
    rfl

theorem leadingText_congr (h : f'.reversed.getLast? = f.reversed.getLast?) :
    f'.element.leadingText = f.element.leadingText := by
  refine Element.leadingText_congr ?_
  simpa only [element, List.head?_reverse] using h

theorem fixed_write : (f.write joining s).Fixed ↔ f.Fixed := by
  obtain h | ⟨t, before, hbefore, h⟩ := write_cases joining f s
  · simp [h, Fixed, add]
  · simp [h, Fixed, hbefore]

theorem Fixed.leadingText_write (hf : f.Fixed) : (f.write joining s).element.leadingText = f.element.leadingText := by
  obtain ⟨n, hn, hne⟩ := hf
  refine leadingText_congr ?_
  obtain h | ⟨t, before, hbefore, h⟩ := write_cases joining f s
  · obtain ⟨m, ms, hms⟩ := List.exists_cons_of_ne_nil (List.ne_nil_of_mem hn)
    rw [h, add, hms, List.getLast?_cons_cons]
  · rw [hbefore, List.mem_cons] at hn
    have hn := hn.resolve_left (hne t)
    obtain ⟨m, ms, rfl⟩ := List.exists_cons_of_ne_nil (List.ne_nil_of_mem hn)
    rw [h, hbefore, List.getLast?_cons_cons, List.getLast?_cons_cons]

theorem Fixed.add (hf : f.Fixed) (n : Node) : (f.add n).Fixed := by
  obtain ⟨m, hm, hne⟩ := hf
  exact ⟨m, List.mem_cons_of_mem n hm, hne⟩

theorem Fixed.leadingText_add (hf : f.Fixed) (n : Node) : (f.add n).element.leadingText = f.element.leadingText := by
  obtain ⟨m, hm, -⟩ := hf
  obtain ⟨k, ks, hks⟩ := List.exists_cons_of_ne_nil (List.ne_nil_of_mem hm)
  refine leadingText_congr ?_
  rw [Frame.add, hks, List.getLast?_cons_cons]

/-- An element under way without a comment and with it. `new` is the text that leads to the comment, and `fixed` says
that something besides text stood in the element before. -/
structure Cut (new : String) (fixed : Prop) (f f' : Frame) : Prop where
  name : f'.name = f.name
  scope : f'.scope = f.scope
  attributes : f'.attributes = f.attributes
  elements : f'.element.elements = f.element.elements
  complete : f'.Fixed
  leading : f'.element.leadingText = new
  before : fixed → f.Fixed ∧ f.element.leadingText = new

section Cut

variable {new : String} {fixed : Prop}

theorem cut_comment (f : Frame) (c : String) : Cut f.element.leadingText f.Fixed f (f.add (.comment c)) where
  name := rfl
  scope := rfl
  attributes := rfl
  elements := by
    rw [elements_eq, elements_eq]
    rfl
  complete := ⟨.comment c, List.mem_cons_self, fun s => Node.noConfusion⟩
  leading := by
    cases hr : f.reversed with
    | nil =>
        simp [element, Element.leadingText, add, hr]
    | cons n ns =>
        refine leadingText_congr ?_
        rw [add, hr, List.getLast?_cons_cons]
  before hfixed := ⟨hfixed, rfl⟩

theorem cut_write_left : Cut new fixed (f.write joining s) f' ↔ Cut new fixed f f' := by
  obtain ⟨hname, hscope, hattributes⟩ := write_head joining f s
  constructor
  · rintro ⟨name, scope, attributes, elements, complete, leading, before⟩
    refine ⟨name.trans hname, scope.trans hscope, attributes.trans hattributes, elements.trans (elements_write _ _ _),
      complete, leading, fun hfixed => ?_⟩
    obtain ⟨hf, htext⟩ := before hfixed
    rw [fixed_write] at hf
    exact ⟨hf, hf.leadingText_write.symm.trans htext⟩
  · rintro ⟨name, scope, attributes, elements, complete, leading, before⟩
    refine ⟨name.trans hname.symm, scope.trans hscope.symm, attributes.trans hattributes.symm,
      elements.trans (elements_write _ _ _).symm, complete, leading, fun hfixed => ?_⟩
    obtain ⟨hf, htext⟩ := before hfixed
    exact ⟨fixed_write.2 hf, hf.leadingText_write.trans htext⟩

theorem Cut.write_right (h : Cut new fixed f f') (joining : Bool) (s : String) :
    Cut new fixed f (f'.write joining s) := by
  obtain ⟨hname, hscope, hattributes⟩ := write_head joining f' s
  exact ⟨hname.trans h.name, hscope.trans h.scope, hattributes.trans h.attributes,
    (elements_write _ _ _).trans h.elements, fixed_write.2 h.complete, h.complete.leadingText_write.trans h.leading,
    h.before⟩

theorem Cut.add (h : Cut new fixed f f') (n : Node) : Cut new fixed (f.add n) (f'.add n) where
  name := h.name
  scope := h.scope
  attributes := h.attributes
  elements := by
    have helements := h.elements
    rw [elements_eq, elements_eq, List.reverse_inj] at helements ⊢
    rw [Frame.add, Frame.add, List.filterMap_cons, List.filterMap_cons, helements]
  complete := h.complete.add n
  leading := (h.complete.leadingText_add n).trans h.leading
  before hfixed := by
    obtain ⟨hf, htext⟩ := h.before hfixed
    exact ⟨hf.add n, (hf.leadingText_add n).trans htext⟩

theorem Cut.recut (h : Cut new fixed f f') :
    Recut f.element.leadingText new [f.name.name] f.element f'.element :=
  .here (congrArg QName.name h.name) h.attributes h.elements rfl h.leading

end Cut

end Frame

namespace Progress

section Side

variable (new : String) (fixed : Prop) (names : List String)

inductive Loose : List Frame → List Frame → Prop
  | empty : Loose [] []
  | cut {f f' : Frame} {below : List Frame} (h : f.Cut new fixed f')
      (hnames : names = (f :: below).map (·.name.name)) : Loose (f :: below) (f' :: below)

/-- The open elements without and with the comment, and whether text is under way in them: the comment is in the
innermost element, or in a complete element inside of some other. -/
inductive Stack : Bool → Bool → List Frame → List Frame → Prop
  | loose {a b : Bool} {fs fs' : List Frame} (h : Loose new fixed names fs fs') : Stack a b fs fs'
  | shut {a : Bool} {old : String} {inner : List String} {c c' : Element} (hc : Recut old new inner c c')
      (hold : fixed → old = new) (f : Frame) (after before : List Node) (below : List Frame)
      (hnames : names = inner ++ (f :: below).map (·.name.name)) :
      Stack a a ({ f with reversed := after ++ c.node :: before } :: below)
        ({ f with reversed := after ++ c'.node :: before } :: below)
  | above {a a' b' : Bool} {fs fs' : List Frame} (g : Frame) (h : Stack a' b' fs fs') : Stack a a (g :: fs) (g :: fs')

inductive Roots : Option Element → Option Element → Prop
  | same (r : Option Element) : Roots r r
  | recut {old : String} {e e' : Element} (h : Recut old new names e e') (hold : fixed → old = new) :
      Roots (some e) (some e')

/-- Where a document stands without a comment, and with it. -/
structure Apart (p q : Progress) : Prop where
  stack : Stack new fixed names p.joining q.joining p.frames q.frames
  root : Roots new fixed names p.root q.root
  pending : q.pending = p.pending

end Side

section Steps

variable {new : String} {fixed : Prop} {names : List String} {p q p' : Progress} {a b : Bool}

theorem Roots.or {r r' x x' : Option Element} (h : Roots new fixed names r r') (hx : Roots new fixed names x x') :
    Roots new fixed names (r.or x) (r'.or x') := by
  cases h with
  | same r =>
      cases r with
      | none => exact hx
      | some e => exact .same _
  | recut h hold => exact .recut h hold

theorem Stack.rejoin {fs fs' : List Frame} (h : Stack new fixed names a b fs fs') (j : Bool) :
    Stack new fixed names j j fs fs' := by
  cases h with
  | loose h => exact .loose h
  | shut hc hold f after before below hnames => exact .shut hc hold f after before below hnames
  | above g h => exact .above g h

theorem Stack.scope (h : Stack new fixed names a b p.frames q.frames) : q.scope = p.scope := by
  obtain ⟨frames, _, _, _⟩ := p
  obtain ⟨frames', _, _, _⟩ := q
  cases h with
  | loose h =>
      cases h with
      | empty => rfl
      | cut h hnames => exact h.scope
  | shut => rfl
  | above => rfl

theorem Apart.add (h : Apart new fixed names p q) (n : Node) : Apart new fixed names (p.add n) (q.add n) := by
  obtain ⟨frames, root, joining, pending⟩ := p
  obtain ⟨frames', root', joining', pending'⟩ := q
  obtain ⟨hstack, hroot, hpending⟩ := h
  cases hstack with
  | loose h =>
      cases h with
      | empty => exact ⟨.loose .empty, hroot.or (.same _), hpending⟩
      | cut h hnames => exact ⟨.loose (.cut (h.add n) hnames), hroot, hpending⟩
  | shut hc hold f after before below hnames =>
      exact ⟨.shut hc hold f (n :: after) before below hnames, hroot, hpending⟩
  | above g h => exact ⟨.above (g.add n) h, hroot, hpending⟩

theorem Apart.of_close {old : String} {inner : List String} {c c' : Element} (hframes : q.frames = p.frames)
    (hroot : Roots new fixed names p.root q.root) (hpending : q.pending = p.pending) (hc : Recut old new inner c c')
    (hold : fixed → old = new) (hnames : names = inner ++ p.frames.map (·.name.name)) :
    Apart new fixed names (p.add c.node) (q.add c'.node) := by
  obtain ⟨frames, root, joining, pending⟩ := p
  obtain ⟨frames', root', joining', pending'⟩ := q
  cases hframes
  cases frames with
  | nil =>
      rw [List.map_nil, List.append_nil] at hnames
      subst hnames
      exact ⟨.loose .empty, hroot.or (.recut hc hold), hpending⟩
  | cons f fs => exact ⟨.shut hc hold f [] f.reversed fs hnames, hroot, hpending⟩

theorem Apart.start? (h : Apart new fixed names p q) {name : QName} {values : List (QName × String)} {ending : TagEnd}
    (hp : p.start? name values ending = some p') :
    ∃ q', q.start? name values ending = some q' ∧ Apart new fixed names p' q' := by
  have hscope := h.stack.scope
  cases ending with
  | opened =>
      obtain ⟨hspace, f, hf, rfl⟩ := start?_opened.1 hp
      rw [← hscope, ← h.pending] at hf
      exact ⟨_, start?_opened.2 ⟨hspace, f, hf, rfl⟩, .above f h.stack, h.root, rfl⟩
  | closed =>
      obtain ⟨hspace, f, hf, rfl⟩ := start?_closed.1 hp
      rw [← hscope, ← h.pending] at hf
      have hadd := h.add f.node
      exact ⟨_, start?_closed.2 ⟨hspace, f, hf, rfl⟩, hadd.stack, hadd.root, rfl⟩
  | missing =>
      obtain ⟨hspace, hdeclarations, rfl⟩ := start?_missing.1 hp
      rw [← h.pending] at hdeclarations
      exact ⟨_, start?_missing.2 ⟨hspace, hdeclarations, rfl⟩, h.stack.rejoin false, h.root, by simp [h.pending]⟩

theorem Apart.stop (h : Apart new fixed names p q) {name : QName} (hp : p.stop name = .ok p') :
    ∃ q', q.stop name = .ok q' ∧ Apart new fixed names p' q' := by
  have hscope := h.stack.scope
  obtain ⟨henter, f, fs, hframes, hname, rfl⟩ := stop_eq_ok.1 hp
  rw [← hscope, ← h.pending] at henter
  obtain ⟨frames, root, joining, pending⟩ := p
  obtain ⟨frames', root', joining', pending'⟩ := q
  cases hframes
  obtain ⟨hstack, hroot, -⟩ := h
  cases hstack with
  | loose h =>
      cases h with
      | @cut _ f' _ hcut hnames =>
          refine ⟨_, stop_eq_ok.2 ⟨henter, f', fs, rfl, hname.trans hcut.name.symm, rfl⟩, ?_⟩
          refine Apart.of_close ?_ ?_ ?_ hcut.recut (fun hfixed => (hcut.before hfixed).2) ?_
          · rfl
          · exact hroot
          · rfl
          · exact hnames
  | @shut _ old inner c c' hc hold g after before _ hnames =>
      refine ⟨_, stop_eq_ok.2 ⟨henter, _, fs, rfl, hname, rfl⟩, ?_⟩
      have hnode (c : Element) : ({ g with reversed := after ++ c.node :: before } : Frame).node =
          (⟨g.name.name, g.attributes, before.reverse ++ c.node :: after.reverse⟩ : Element).node := by
        simp [Frame.node, Element.node]
      rw [hnode, hnode]
      refine Apart.of_close ?_ ?_ ?_ (hc.inside g.name.name g.attributes before.reverse after.reverse) hold ?_
      · rfl
      · exact hroot
      · rfl
      · rw [hnames, List.append_assoc]
        rfl
  | above g h =>
      refine ⟨_, stop_eq_ok.2 ⟨henter, f, _, rfl, hname, rfl⟩, Apart.add ?_ f.node⟩
      exact ⟨h.rejoin joining, hroot, rfl⟩

theorem write_shut (f : Frame) (after before : List Node) (joining : Bool) (s : String) :
    ∃ after', ∀ c : Element, ({ f with reversed := after ++ c.node :: before } : Frame).write joining s =
      { f with reversed := after' ++ c.node :: before } := by
  unfold Frame.write Frame.extend Frame.add
  cases joining with
  | false => exact ⟨.text s :: after, fun c => rfl⟩
  | true =>
      cases after with
      | nil => exact ⟨[.text s], fun c => rfl⟩
      | cons n after =>
          cases n with
          | text t => exact ⟨.text (t ++ s) :: after, fun c => rfl⟩
          | element | comment | instruction => exact ⟨.text s :: _ :: after, fun c => rfl⟩

theorem Apart.addText (h : Apart new fixed names p q) (s : String) :
    Apart new fixed names (p.addText s) (q.addText s) := by
  obtain ⟨frames, root, joining, pending⟩ := p
  obtain ⟨frames', root', joining', pending'⟩ := q
  obtain ⟨hstack, hroot, hpending⟩ := h
  cases hstack with
  | loose h =>
      cases h with
      | empty => exact ⟨.loose .empty, hroot, hpending⟩
      | @cut f f' below hcut hnames =>
          have hleft : Frame.Cut new fixed (f.write joining s) f' := Frame.cut_write_left.2 hcut
          have hnames' : names = (f.write joining s :: below).map (·.name.name) := by
            rw [hnames, List.map_cons, List.map_cons, (Frame.write_head joining f s).1]
          exact ⟨.loose (.cut (hleft.write_right joining' s) hnames'), hroot, hpending⟩
  | shut hc hold f after before below hnames =>
      obtain ⟨after', hwrite⟩ := write_shut f after before joining s
      have hshut : Stack new fixed names true true _ _ := .shut hc hold f after' before below hnames
      rw [← hwrite, ← hwrite] at hshut
      exact ⟨hshut, hroot, hpending⟩
  | above g h => exact ⟨.above (g.write joining s) h, hroot, hpending⟩

theorem Apart.step (h : Apart new fixed names p q) {e : Event} (hp : p.step e = .ok p') :
    ∃ q', q.step e = .ok q' ∧ Apart new fixed names p' q' := by
  cases e with
  | start name values ending =>
      rw [Progress.step] at hp
      split at hp
      · rename_i hstart
        cases hp
        obtain ⟨q', hq', hapart⟩ := h.start? hstart
        exact ⟨q', by rw [Progress.step, hq'], hapart⟩
      · cases hp
  | stop name => exact h.stop hp
  | text s =>
      cases hp
      exact ⟨_, rfl, h.addText s⟩
  | comment s =>
      cases hp
      exact ⟨_, rfl, h.add _⟩
  | instruction target s =>
      cases hp
      exact ⟨_, rfl, h.add _⟩
  | fault => cases hp

theorem Apart.foldlM_step (h : Apart new fixed names p q) {es : List Event} (hp : es.foldlM Progress.step p = .ok p') :
    ∃ q', es.foldlM Progress.step q = .ok q' ∧ Apart new fixed names p' q' := by
  induction es generalizing p q with
  | nil =>
      cases hp
      exact ⟨q, rfl, h⟩
  | cons e es ih =>
      obtain ⟨p₁, hp₁, hp⟩ := foldlM_cons_eq_ok.1 hp
      obtain ⟨q₁, hq₁, h₁⟩ := h.step hp₁
      obtain ⟨q', hq', h'⟩ := ih h₁ hp
      exact ⟨q', foldlM_cons_eq_ok.2 ⟨q₁, hq₁, hq'⟩, h'⟩

theorem Apart.finish (h : Apart new fixed names p q) {root : Element} (hp : p.finish = .ok root) :
    ∃ root', q.finish = .ok root' ∧ Roots new fixed names (some root) (some root') := by
  obtain ⟨frames, r, joining, pending⟩ := p
  obtain ⟨frames', r', joining', pending'⟩ := q
  obtain ⟨hframes, hroot⟩ := finish_eq_ok.1 hp
  cases hframes
  cases hroot
  obtain ⟨hstack, hroots, -⟩ := h
  cases hstack with
  | loose h =>
      cases h
      cases hroots with
      | same => exact ⟨root, rfl, .same _⟩
      | @recut old _ e' hc hold => exact ⟨e', rfl, .recut hc hold⟩

end Steps

def names (p : Progress) : List String := p.frames.map (·.name.name)

def leadingText (p : Progress) : String := (p.frames.head?.map fun f => f.element.leadingText).getD ""

def Fixed (p : Progress) : Prop := ∃ f ∈ p.frames.head?, f.Fixed

/-- Where a document stands without a comment and with it, as long as the element with the comment is the innermost. -/
structure Ajar (new : String) (fixed : Prop) (names : List String) (p q : Progress) : Prop where
  loose : Loose new fixed names p.frames q.frames
  root : q.root = p.root
  pending : q.pending = p.pending

section Ajar

variable {new : String} {fixed : Prop} {names : List String} {p q : Progress}

theorem Ajar.apart (h : Ajar new fixed names p q) : Apart new fixed names p q :=
  ⟨.loose h.loose, h.root ▸ .same _, h.pending⟩

theorem ajar_comment (p : Progress) (c : String) : Ajar p.leadingText p.Fixed p.names p (p.add (.comment c)) := by
  obtain ⟨frames, root, joining, pending⟩ := p
  cases frames with
  | nil =>
      refine ⟨.empty, ?_, rfl⟩
      cases root <;> rfl
  | cons f fs =>
      have hfixed : Fixed ⟨f :: fs, root, joining, pending⟩ = f.Fixed := by simp [Fixed]
      rw [hfixed]
      exact ⟨.cut (f.cut_comment c) rfl, rfl, rfl⟩

theorem ajar_addText_left {s : String} : Ajar new fixed names (p.addText s) q ↔ Ajar new fixed names p q := by
  obtain ⟨frames, root, joining, pending⟩ := p
  obtain ⟨frames', root', joining', pending'⟩ := q
  cases frames with
  | nil => exact ⟨fun h => ⟨h.loose, h.root, h.pending⟩, fun h => ⟨h.loose, h.root, h.pending⟩⟩
  | cons f fs =>
      have hnames : (f.write joining s :: fs).map (·.name.name) = (f :: fs).map (·.name.name) := by
        rw [List.map_cons, List.map_cons, (Frame.write_head joining f s).1]
      constructor
      · rintro ⟨hloose, hroot, hpending⟩
        refine ⟨?_, hroot, hpending⟩
        cases hloose with
        | cut hcut hall => exact .cut (Frame.cut_write_left.1 hcut) (hall.trans hnames)
      · rintro ⟨hloose, hroot, hpending⟩
        refine ⟨?_, hroot, hpending⟩
        cases hloose with
        | cut hcut hall => exact .cut (Frame.cut_write_left.2 hcut) (hall.trans hnames.symm)

theorem Ajar.addText_right (h : Ajar new fixed names p q) (s : String) : Ajar new fixed names p (q.addText s) := by
  obtain ⟨frames, root, joining, pending⟩ := p
  obtain ⟨frames', root', joining', pending'⟩ := q
  obtain ⟨hloose, hroot, hpending⟩ := h
  cases hloose with
  | empty => exact ⟨.empty, hroot, hpending⟩
  | cut hcut hall => exact ⟨.cut (hcut.write_right joining' s) hall, hroot, hpending⟩

end Ajar

end Progress

end Bisection.Xml
