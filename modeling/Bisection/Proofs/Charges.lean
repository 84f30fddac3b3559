import Mathlib
import Bisection.Proofs.TextNodes

namespace Bisection.Xml

/-- The weight of a character in front of another. Together, the slash and the bracket that close a tag without content
weigh as much as an end tag. -/
def charge (c : Char) (next : Option Char) : ℕ :=
  if c = '<' ∨ c = '[' ∨ c = '&' ∨ c = ';' ∨ c = '\r' ∨ (c = '/' ∧ next = some '>') then 1 else 0

def weight : List Char → ℕ
  | [] => 0
  | c :: cs => charge c cs.head? + weight cs

section Weight

variable {c : Char} {u v : List Char}

theorem charge_le_one (c : Char) (next : Option Char) : charge c next ≤ 1 := by
  unfold charge
  split <;> omega

theorem charge_none_le (c : Char) (next : Option Char) : charge c none ≤ charge c next := by
  unfold charge
  grind

theorem charge_congr {next : Option Char} (h : c = '/' → next ≠ some '>') : charge c next = charge c none := by
  unfold charge
  grind

theorem le_weight_append (u v : List Char) : weight u + weight v ≤ weight (u ++ v) := by
  induction u with
  | nil => simp [weight]
  | cons c u ih =>
      have hcharge : charge c u.head? ≤ charge c (u ++ v).head? := by
        cases u with
        | nil => exact charge_none_le c _
        | cons d u => exact le_rfl
      simp only [List.cons_append, weight]
      omega

/-- Texts side by side weigh more than they do alone only if they make the end of a tag together. -/
theorem weight_append (h : u.getLast? ≠ some '/' ∨ v.head? ≠ some '>') : weight (u ++ v) = weight u + weight v := by
  induction u with
  | nil => simp [weight]
  | cons c u ih =>
      cases u with
      | nil =>
          have hcharge : charge c v.head? = charge c none := by
            refine charge_congr ?_
            rintro rfl
            exact h.resolve_left (by simp)
          simp [weight, hcharge]
      | cons d u =>
          have hih := ih (by simpa using h)
          simp only [List.cons_append, weight, List.head?_cons] at hih ⊢
          omega

theorem weight_append_le (u v : List Char) : weight (u ++ v) ≤ weight u + weight v + 1 := by
  induction u with
  | nil => simp [weight]
  | cons c u ih =>
      cases u with
      | nil =>
          have := charge_le_one c v.head?
          simp only [List.cons_append, List.nil_append, weight]
          omega
      | cons d u =>
          simp only [List.cons_append, weight, List.head?_cons] at ih ⊢
          omega

theorem weight_insert_le (u : List Char) (c : Char) (v : List Char) :
    weight (u ++ c :: v) ≤ weight u + weight v + 1 := by
  by_cases hc : c = '>'
  · have := weight_append_le u (c :: v)
    have hcharge : charge c v.head? = 0 := by rw [hc]; rfl
    simp only [weight, hcharge] at this
    omega
  · rw [weight_append (.inr (by simpa using hc))]
    have := charge_le_one c v.head?
    simp only [weight]
    omega

theorem weight_mono (h : u <:+: v) : weight u ≤ weight v := by
  obtain ⟨a, b, rfl⟩ := h
  have := le_weight_append (a ++ u) b
  have := le_weight_append a u
  omega

theorem weight_newline (u v : List Char) : weight (u ++ '\n' :: v) = weight u + weight v := by
  rw [weight_append (.inr (by simp)), weight, show charge '\n' v.head? = 0 from rfl, zero_add]

theorem weight_return (u v : List Char) : weight (u ++ '\r' :: v) = weight u + weight v + 1 := by
  rw [weight_append (.inr (by simp)), weight, show charge '\r' v.head? = 1 from rfl]
  omega

end Weight

section Runs

def Run.text (r : Run) : List Char := r.reversed.reverse

theorem Run.push_return {before : List Char} {verbatim : Bool} (c : Char) (last : Bool) (rest : List Char) :
    weight ((push ⟨'\r' :: before, verbatim⟩ c last).text ++ rest) < weight (before.reverse ++ '\r' :: c :: rest) := by
  have hle : weight rest ≤ weight (c :: rest) := weight_mono (List.suffix_cons c rest).isInfix
  rw [weight_return]
  simp only [push, text]
  split
  · have hnewline : weight ('\n' :: rest) = weight rest := by simpa [weight] using weight_newline [] rest
    simp only [List.reverse_cons, List.append_assoc, List.cons_append, List.nil_append, weight_newline]
    omega
  · split
    · simp only [List.reverse_cons, List.append_assoc, List.singleton_append, weight_newline]
      omega
    · simp only [List.reverse_cons, List.append_assoc, List.cons_append, List.nil_append, weight_newline]
      omega

theorem Run.push_cases (r : Run) (c : Char) (last : Bool) :
    (r.reversed.head? ≠ some '\r' ∧ (c = '\r' → last = false) ∧ r.push c last = ⟨c :: r.reversed, false⟩) ∨
      ∀ rest, weight ((r.push c last).text ++ rest) < weight (r.text ++ c :: rest) := by
  obtain ⟨reversed, verbatim⟩ := r
  by_cases hreturn : reversed.head? = some '\r'
  · obtain ⟨before, rfl⟩ : ∃ before, reversed = '\r' :: before := by
      cases reversed with
      | nil => cases hreturn
      | cons d before => exact ⟨before, by rw [Option.some.inj hreturn]⟩
    refine .inr fun rest => ?_
    simpa [text] using push_return c last rest
  · have hpush : push ⟨reversed, verbatim⟩ c last = ⟨(if last && c == '\r' then '\n' else c) :: reversed, false⟩ := by
      rw [push]
      split
      · simp_all
      · rfl
    by_cases hclosing : c = '\r' ∧ last = true
    · obtain ⟨rfl, rfl⟩ := hclosing
      refine .inr fun rest => ?_
      rw [hpush]
      simp [text, weight_newline, weight_return]
    · refine .inl ⟨hreturn, fun hc => ?_, ?_⟩
      · simpa [hc] using hclosing
      · rw [hpush, if_neg]
        simpa [and_comm] using hclosing

theorem Run.weight_push_le (r : Run) (c : Char) (last : Bool) (rest : List Char) :
    weight ((r.push c last).text ++ rest) ≤ weight (r.text ++ c :: rest) := by
  rcases r.push_cases c last with ⟨-, -, hpush⟩ | hlost
  · rw [hpush]
    simp [text]
  · exact (hlost rest).le

theorem weight_cdataText (r : Run) (raw : List Char) : weight (cdataText r raw).toList ≤ weight (r.text ++ raw) := by
  induction raw generalizing r with
  | nil => simp [cdataText, Run.text]
  | cons c raw ih => exact (ih _).trans (r.weight_push_le c _ raw)

theorem weight_reference (u body rest : List Char) (c : Char) :
    weight (u ++ c :: rest) < weight (u ++ '&' :: (body ++ ';' :: rest)) := by
  have hleft := weight_insert_le u c rest
  have hright := le_weight_append u ('&' :: (body ++ ';' :: rest))
  have hbody := le_weight_append body (';' :: rest)
  have hamp : weight ('&' :: (body ++ ';' :: rest)) = 1 + weight (body ++ ';' :: rest) := rfl
  have hsemicolon : weight (';' :: rest) = 1 + weight rest := rfl
  omega

theorem textPieces_entityless (inner : ContentReader) (run : Run) (raw : List Char) (count : ℕ) :
    (textPieces [] true inner run (pieces raw) count).1 = [.fault] ∨
      ∃ out : Run, (textPieces [] true inner run (pieces raw) count).1 = out.events ∧
        weight out.text ≤ weight (run.text ++ raw) := by
  fun_induction pieces raw generalizing run with
  | case1 => exact .inr ⟨run, rfl, by simp⟩
  | case2 cs p rest hp _ ih =>
      obtain ⟨⟨c, -, rfl⟩ | ⟨name, rfl⟩, body, rfl⟩ := reference?_spec hp
      · refine (ih (run.pushVerbatim c true)).imp_right ?_
        rintro ⟨out, hout, hweight⟩
        refine ⟨out, hout, hweight.trans ?_⟩
        simpa [Run.text, Run.pushVerbatim] using (weight_reference run.text body rest c).le
      · exact .inl rfl
  | case3 => exact .inl rfl
  | case4 c cs _ ih =>
      rw [textPieces]
      split
      · refine (ih (run.pushVerbatim c false)).imp_right ?_
        rintro ⟨out, hout, hweight⟩
        exact ⟨out, hout, by simpa [Run.text, Run.pushVerbatim] using hweight⟩
      · refine (ih (run.push c _)).imp_right ?_
        rintro ⟨out, hout, hweight⟩
        exact ⟨out, hout, hweight.trans (run.weight_push_le c _ cs)⟩

theorem textPieces_of_weight (inner : ContentReader) (run : Run) (hrun : run.verbatim = false) (raw : List Char)
    (count : ℕ) : (textPieces [] true inner run (pieces raw) count).1 = [.fault] ∨
      ∃ out : Run, (textPieces [] true inner run (pieces raw) count).1 = out.events ∧
        (weight out.text < weight (run.text ++ raw) ∨
          out.text = run.text ++ raw ∧ '&' ∉ raw ∧ '\r' ∉ raw ∧ (raw ≠ [] → run.reversed.head? ≠ some '\r')) := by
  fun_induction pieces raw generalizing run with
  | case1 => exact .inr ⟨run, rfl, .inr (by simp)⟩
  | case2 cs p rest hp _ _ =>
      obtain ⟨⟨c, -, rfl⟩ | ⟨name, rfl⟩, body, rfl⟩ := reference?_spec hp
      · refine (textPieces_entityless inner (run.pushVerbatim c true) rest count).imp_right ?_
        rintro ⟨out, hout, hweight⟩
        refine ⟨out, hout, .inl (hweight.trans_lt ?_)⟩
        simpa [Run.text, Run.pushVerbatim] using weight_reference run.text body rest c
      · exact .inl rfl
  | case3 => exact .inl rfl
  | case4 c cs hc ih =>
      rw [textPieces]
      simp only [hrun, Bool.false_eq_true, if_false]
      rcases run.push_cases c (pieces cs).isEmpty with ⟨hhead, hlast, hpush⟩ | hlost
      · rw [hpush]
        refine (ih _ rfl).imp_right ?_
        rintro ⟨out, hout, hweight⟩
        refine ⟨out, hout, hweight.imp (by simp [Run.text]) ?_⟩
        rintro ⟨htext, hamp, hreturn, hnext⟩
        -- a carriage return at the end would have been replaced, before other text it will be
        have hother : c ≠ '\r' := by
          rintro rfl
          have hcs : cs ≠ [] := by simpa [pieces_eq_nil] using hlast rfl
          exact hnext hcs rfl
        exact ⟨by simpa [Run.text] using htext, by simp [hamp, Ne.symm hc], by simp [hreturn, hother.symm],
          fun _ => hhead⟩
      · refine (textPieces_entityless inner (run.push c (pieces cs).isEmpty) cs count).imp_right ?_
        rintro ⟨out, hout, hweight⟩
        exact ⟨out, hout, .inl (hweight.trans_lt (hlost cs))⟩

end Runs

def TagEnd.price : TagEnd → ℕ
  | .opened => 1
  | .closed => 2
  | .missing => 1

/-- The least weight of the characters of a token. -/
def Token.price : Token → ℕ
  | .start _ _ ending => ending.price
  | .stop _ => 1
  | .text raw => weight raw
  | .cdata raw => weight raw + 3
  | .comment _ => 1
  | .instruction _ _ => 1
  | .broken => 0

theorem Token.Spelled.price_le {t : Token} {tok : List Char} (h : t.Spelled tok) : t.price ≤ weight tok := by
  have htag (cs : List Char) : weight ('<' :: cs) = 1 + weight cs := rfl
  cases h with
  | @start name as ending c _ body =>
      have hend := le_weight_append (c :: body) ending.text
      have hprice : ending.price = 1 + weight ending.text := by cases ending <;> rfl
      rw [htag, price, hprice]
      exact Nat.add_le_add_left (le_of_add_le_right hend) 1
  | stop => rw [htag, price]; omega
  | text => exact le_rfl
  | @cdata raw =>
      have hmark := le_weight_append "<![CDATA[".toList (raw ++ [']', ']', '>'])
      have hraw := le_weight_append raw [']', ']', '>']
      have hopening : weight "<![CDATA[".toList = 3 := by decide
      rw [price]
      omega
  | @comment raw =>
      have hmark := le_weight_append "<!--".toList (raw ++ ['-', '-', '>'])
      have hopening : weight "<!--".toList = 1 := by decide
      rw [price]
      omega
  | instruction => rw [htag, price]; omega

mutual

/-- The weight of a tree: two for each element, and its texts. -/
def Node.load : Node → ℕ
  | .element _ _ children => 2 + loads children
  | .text s => weight s.toList
  | _ => 0

def loads : List Node → ℕ
  | [] => 0
  | n :: rest => n.load + loads rest

end

theorem loads_append (ms ns : List Node) : loads (ms ++ ns) = loads ms + loads ns := by
  induction ms with
  | nil => simp [loads]
  | cons m ms ih => simp only [List.cons_append, loads, ih]; omega

theorem loads_reverse (ns : List Node) : loads ns.reverse = loads ns := by
  induction ns with
  | nil => rfl
  | cons n ns ih => simp only [List.reverse_cons, loads_append, loads, ih]; omega

def Element.load (e : Element) : ℕ := 2 + loads e.children

def Frame.load (f : Frame) : ℕ := 1 + loads f.reversed

theorem Frame.load_node (f : Frame) : f.node.load = f.load + 1 := by
  simp only [node, Node.load, load, loads_reverse]
  omega

namespace Progress

variable {p q : Progress}

def load (p : Progress) : ℕ := (p.frames.map Frame.load).sum + (p.root.map Element.load).getD 0

theorem load_add_le (p : Progress) (n : Node) : (p.add n).load ≤ p.load + n.load := by
  obtain ⟨frames, root, joining, pending⟩ := p
  cases frames with
  | cons f fs =>
      simp only [add, load, List.map_cons, List.sum_cons, Frame.load, Frame.add, loads]
      omega
  | nil =>
      cases root with
      | some e => simp [add, load]
      | none => cases n <;> simp [add, load, Node.element?, Element.load, Node.load]

theorem load_addText_le (p : Progress) (s : String) :
    (p.addText s).load ≤ p.load + weight s.toList + if p.joining then 1 else 0 := by
  obtain ⟨frames, root, joining, pending⟩ := p
  cases frames with
  | nil => simp [addText, load]; omega
  | cons f fs =>
      simp only [addText, load, List.map_cons, List.sum_cons]
      cases joining with
      | false => simp only [Bool.false_eq_true, if_false, Frame.load, Frame.add, loads, Node.load]; omega
      | true =>
          simp only [if_true, Frame.extend]
          split
          · rename_i t before hbefore
            have hjoin := weight_append_le t.toList s.toList
            simp only [Frame.load, hbefore, loads, Node.load, String.toList_append]
            omega
          · simp only [Frame.load, Frame.add, loads, Node.load]
            omega

theorem joining_add (p : Progress) (n : Node) : (p.add n).joining = false := by
  cases hframes : p.frames <;> simp [add, hframes]

theorem load_start? {name : QName} {values : List (QName × String)} {ending : TagEnd}
    (h : p.start? name values ending = some q) :
    q.joining = false ∧ q.load + (if ending = .missing then 1 else 0) ≤ p.load + ending.price := by
  cases ending with
  | opened =>
      obtain ⟨-, f, hf, rfl⟩ := start?_opened.1 h
      obtain ⟨-, hempty⟩ := openFrame?_eq_some hf
      have hload : f.load = 1 := by rw [Frame.load, hempty, loads]
      refine ⟨rfl, ?_⟩
      simp only [load, List.map_cons, List.sum_cons, hload, TagEnd.price]
      simp only [reduceCtorEq, if_false]
      omega
  | closed =>
      obtain ⟨-, f, hf, rfl⟩ := start?_closed.1 h
      obtain ⟨-, hempty⟩ := openFrame?_eq_some hf
      have hadd := p.load_add_le f.node
      rw [f.load_node, Frame.load, hempty, loads] at hadd
      exact ⟨p.joining_add f.node, hadd⟩
  | missing =>
      obtain ⟨-, -, rfl⟩ := start?_missing.1 h
      exact ⟨rfl, le_rfl⟩

theorem load_stop {name : QName} (h : p.stop name = .ok q) : q.joining = false ∧ q.load ≤ p.load + 1 := by
  obtain ⟨-, f, fs, hframes, -, rfl⟩ := stop_eq_ok.1 h
  refine ⟨joining_add _ _, (load_add_le _ f.node).trans ?_⟩
  rw [f.load_node]
  simp only [load, hframes, List.map_cons, List.sum_cons]
  omega

theorem take_text_entityless {raw : List Char} (h : p.take [] (.text raw) = .ok q) :
    q = p ∨ ∃ s, q = p.addText (String.ofList s) ∧ (weight s < weight raw ∨ s = raw ∧ '&' ∉ raw ∧ '\r' ∉ raw) := by
  rw [take, Token.events, textEvents] at h
  rcases textPieces_of_weight (entityEvents [] maxNesting) {} rfl raw 0 with hfault | ⟨out, hout, hweight⟩
  · rw [hfault] at h
    cases h
  · rw [hout, Run.events] at h
    split at h
    · cases h
      exact .inl rfl
    · cases h
      refine .inr ⟨out.text, rfl, hweight.imp_right ?_⟩
      rintro ⟨htext, hamp, hreturn, -⟩
      exact ⟨htext, hamp, hreturn⟩

/-- The text that is still to be read, and what has been wasted so far, can be paid for with what is left of the total
weight. Text that would extend a text has been preceded by a section, which wastes enough for that. As long as nothing
is wasted, every text stands for itself. -/
structure Paid (total : ℕ) (p : Progress) (cs : List Char) (waste : ℕ) : Prop where
  paid : p.load + waste + weight cs ≤ total
  joining : p.joining = true → Stops (· != '<') cs ∨ 2 ≤ waste
  plain : waste = 0 → p.AllText fun s => PlainText s.toList

namespace Paid

variable {total waste : ℕ} {cs raw rest tok : List Char}

theorem of_tag (h : Paid total p cs waste) {t : Token} (hcs : cs = tok ++ rest) (hspelled : t.Spelled tok) (extra : ℕ)
    (hload : q.load + extra ≤ p.load + t.price) (hjoining : q.joining = false)
    (hplain : extra = 0 → p.AllText (fun s => PlainText s.toList) → q.AllText fun s => PlainText s.toList) :
    Paid total q rest (waste + extra) := by
  have hprice := hspelled.price_le
  have hsplit := le_weight_append tok rest
  have hpaid := h.paid
  rw [hcs] at hpaid
  refine ⟨by omega, by simp [hjoining], fun hzero => ?_⟩
  obtain ⟨hwaste, hextra⟩ := Nat.add_eq_zero_iff.1 hzero
  exact hplain hextra (h.plain hwaste)

theorem of_cdata (h : Paid total p (tok ++ rest) waste) (hspelled : (Token.cdata raw).Spelled tok) :
    Paid total (p.addText (cdataText {} raw)) rest (waste + 2) := by
  have hpaid := h.paid
  have hprice := hspelled.price_le
  have hsplit := le_weight_append tok rest
  have hload := p.load_addText_le (cdataText {} raw)
  have hraw : weight (cdataText {} raw).toList ≤ weight raw := weight_cdataText {} raw
  have hjoin : (if p.joining = true then 1 else 0) ≤ 1 := by split <;> omega
  rw [Token.price] at hprice
  exact ⟨by omega, fun _ => .inr (by omega), by omega⟩

theorem of_text (h : Paid total p (raw ++ rest) waste) (hspelled : (Token.text raw).Spelled raw)
    (hrest : Stops (· != '<') rest) (hq : p.take [] (.text raw) = .ok q) : ∃ waste', Paid total q rest waste' := by
  have hpaid := h.paid
  have hsplit := le_weight_append raw rest
  obtain rfl | ⟨s, rfl, hweight⟩ := take_text_entityless hq
  · exact ⟨waste, by omega, fun _ => .inl hrest, h.plain⟩
  have hload := p.load_addText_le (String.ofList s)
  rw [String.toList_ofList] at hload
  cases hspelled with
  | text hne htag hchars hend =>
      cases hjoining : p.joining with
      | true =>
          -- the text extends a section before it
          have hwaste : 2 ≤ waste := by
            refine (h.joining hjoining).resolve_left fun hstops => ?_
            obtain ⟨c, raw, rfl⟩ := List.exists_cons_of_ne_nil hne
            have hc : c = '<' := by simpa using hstops c rfl
            exact htag (by rw [hc]; exact List.mem_cons_self)
          have hle : weight s ≤ weight raw := by
            rcases hweight with hlt | ⟨rfl, -⟩
            · exact hlt.le
            · exact le_rfl
          simp only [hjoining, if_true] at hload
          exact ⟨waste - 1, by omega, fun _ => .inl hrest, by omega⟩
      | false =>
          simp only [hjoining, Bool.false_eq_true, if_false] at hload
          rcases hweight with hlt | ⟨rfl, hamp, hreturn⟩
          · exact ⟨waste + 1, by omega, fun _ => .inl hrest, by omega⟩
          · refine ⟨waste, by omega, fun _ => .inl hrest, fun hzero => ?_⟩
            refine (h.plain hzero).addText ?_ (by simp [hjoining])
            rw [String.toList_ofList]
            exact ⟨all_isPlain_iff.2 ⟨hchars, htag, hamp, hreturn⟩, hend⟩

theorem next (h : Paid total p cs waste) {t : Token} (hnext : Token.next? cs = some (t, rest))
    (hq : p.take [] t = .ok q) : ∃ waste', Paid total q rest waste' := by
  obtain ⟨tok, hspelled, rfl, hfollows, -⟩ := Token.takes_of_next? hnext
  cases t with
  | start name as ending =>
      obtain ⟨values, -, hstart⟩ := take_start_eq_ok.1 hq
      obtain ⟨hjoining, hload⟩ := load_start? hstart
      exact ⟨_, h.of_tag rfl hspelled _ hload hjoining fun _ hall => hall.start? hstart⟩
  | stop name =>
      rw [take_stop] at hq
      obtain ⟨hjoining, hload⟩ := load_stop hq
      exact ⟨_, h.of_tag rfl hspelled 0 hload hjoining fun _ hall => hall.stop hq⟩
  | text raw =>
      cases hspelled with
      | text hne htag hchars hend => exact h.of_text (.text hne htag hchars hend) hfollows hq
  | cdata raw =>
      cases hq
      exact ⟨_, h.of_cdata hspelled⟩
  | comment raw =>
      cases hq
      have hload : (p.add (.comment (String.ofList raw))).load ≤ p.load := p.load_add_le _
      exact ⟨_, h.of_tag rfl hspelled 1 (Nat.add_le_add_right hload 1) (joining_add _ _) (by simp)⟩
  | instruction target raw =>
      cases hq
      have hload : (p.add (.instruction target (String.ofList raw))).load ≤ p.load := p.load_add_le _
      exact ⟨_, h.of_tag rfl hspelled 1 (Nat.add_le_add_right hload 1) (joining_add _ _) (by simp)⟩
  | broken => cases hq

end Paid

/-- The tree of a document without entities weighs no more than the document, and as much only if every text in it
stands for itself. -/
theorem load_le_weight {allowDoctype : Bool} {text : String} {cs : List Char} {root : Element}
    (hopen : opening? allowDoctype text = some ([], cs)) (h : parse allowDoctype text = .ok root) :
    root.load ≤ weight cs ∧
      (root.load = weight cs → ∀ n ∈ root.children, n.AllText fun s => PlainText s.toList) := by
  obtain ⟨entities, cs', name, as, ending, ts, rest, p, hopen', htokens, hrun, -, hroot⟩ := parse_eq_ok.1 h
  cases hopen.symm.trans hopen'
  have hstart : ∃ waste, Paid (weight cs) {} cs waste := ⟨0, by simp [load], by simp, fun _ => allText_empty⟩
  obtain ⟨waste, hpaid⟩ := invariant_of_tokens (I := fun p cs' => ∃ waste, Paid (weight cs) p cs' waste)
    (fun ⟨_, hpaid⟩ hnext hq => hpaid.next hnext hq) htokens hrun hstart
  have hload := hpaid.paid
  obtain ⟨hframes, hroot'⟩ := finish_eq_ok.1 hroot
  simp only [load, hframes, hroot', List.map_nil, List.sum_nil, Option.map_some, Option.getD_some] at hload
  exact ⟨by omega, fun heq => (hpaid.plain (by omega)).finish hroot⟩

end Progress

end Bisection.Xml
