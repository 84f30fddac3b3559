import Mathlib
import Bisection.Proofs.Elements

namespace Bisection.Xml

section Runs

variable {p : Char → Bool} {run rest cs : List Char}

def Stops (p : Char → Bool) (rest : List Char) : Prop := ∀ c ∈ rest.head?, p c = false

theorem stops_dropWhile (p : Char → Bool) (cs : List Char) : Stops p (cs.dropWhile p) := by
  intro c hc
  have := List.head?_dropWhile_not p cs
  rw [hc] at this
  simpa using this

theorem stops_cons {c : Char} (h : p c = false) : Stops p (c :: rest) := by
  intro d hd
  cases hd
  exact h

theorem takeWhile_append_stops (hrun : ∀ c ∈ run, p c = true) (h : Stops p rest) :
    (run ++ rest).takeWhile p = run := by
  cases rest with
  | nil => rw [List.append_nil, List.takeWhile_eq_self_iff]; exact hrun
  | cons c rest => exact takeWhile_append_cons hrun (h c rfl) rest

theorem dropWhile_append_stops (hrun : ∀ c ∈ run, p c = true) (h : Stops p rest) :
    (run ++ rest).dropWhile p = rest := by
  cases rest with
  | nil => rw [List.append_nil, List.dropWhile_eq_nil_iff]; exact hrun
  | cons c rest => exact dropWhile_append_cons hrun (h c rfl) rest

theorem forall_mem_takeWhile (p : Char → Bool) (cs : List Char) : ∀ c ∈ cs.takeWhile p, p c = true :=
  fun _ hc => List.mem_takeWhile_imp hc

theorem Stops.congr (front rest rest' : List Char) (hne : front ≠ []) (h : Stops p (front ++ rest)) :
    Stops p (front ++ rest') := by
  obtain ⟨c, front, rfl⟩ := List.exists_cons_of_ne_nil hne
  exact stops_cons (h c rfl)

theorem exists_skipSpaces (cs : List Char) :
    ∃ blank, (∀ c ∈ blank, isSpace c = true) ∧ cs = blank ++ skipSpaces cs :=
  ⟨cs.takeWhile isSpace, forall_mem_takeWhile isSpace cs, List.takeWhile_append_dropWhile.symm⟩

theorem skipSpaces_append (hblank : ∀ c ∈ run, isSpace c = true) (h : Stops isSpace rest) :
    skipSpaces (run ++ rest) = rest := dropWhile_append_stops hblank h

theorem skipSpaces_append_cons (hblank : ∀ c ∈ run, isSpace c = true) {c : Char} (hc : isSpace c = false)
    (rest : List Char) : skipSpaces (run ++ c :: rest) = c :: rest := skipSpaces_append hblank (stops_cons hc)

end Runs

section Literals

variable {lit cs raw rest : List Char}

theorem isPrefixOf_append {u : List Char} (h : lit.length ≤ u.length ∨ ∃ c ∈ u, c ∉ lit) (v w : List Char) :
    lit.isPrefixOf (u ++ v) = lit.isPrefixOf (u ++ w) := by
  have hsame (v w : List Char) (hv : lit <+: u ++ v) : lit <+: u ++ w := by
    rcases le_or_gt lit.length u.length with hle | hlt
    · exact (List.prefix_of_prefix_length_le hv (List.prefix_append u v) hle).trans (List.prefix_append u w)
    · obtain ⟨c, hc, hlit⟩ := h.resolve_left (not_le.2 hlt)
      have hu : u <+: lit := List.prefix_of_prefix_length_le (List.prefix_append u v) hv hlt.le
      exact absurd (hu.subset hc) hlit
  rw [Bool.eq_iff_iff, List.isPrefixOf_iff_prefix, List.isPrefixOf_iff_prefix]
  exact ⟨hsame v w, hsame w v⟩

theorem after?_eq_some : after? lit cs = some rest ↔ cs = lit ++ rest := by
  unfold after?
  split
  · rename_i hprefix
    obtain ⟨tail, rfl⟩ := List.isPrefixOf_iff_prefix.1 hprefix
    simp
  · rename_i hprefix
    refine iff_of_false (by simp) ?_
    rintro rfl
    exact hprefix (List.isPrefixOf_iff_prefix.2 (List.prefix_append lit rest))

theorem after?_append (rest : List Char) : after? lit (lit ++ rest) = some rest := after?_eq_some.2 rfl

theorem after?_eq_none : after? lit cs = none ↔ lit.isPrefixOf cs = false := by
  unfold after?
  split <;> simp [*]

theorem breakAt?_reads (hlit : lit ≠ []) (h : breakAt? lit cs = some (raw, rest)) :
    cs = raw ++ (lit ++ rest) ∧ ∀ rest', breakAt? lit (raw ++ (lit ++ rest')) = some (raw, rest') := by
  induction cs generalizing raw with
  | nil => cases h
  | cons c cs ih =>
      rw [breakAt?] at h
      split at h
      · rename_i r hr
        cases h
        refine ⟨show c :: cs = lit ++ _ from after?_eq_some.1 hr, fun rest' => ?_⟩
        obtain ⟨d, ds, rfl⟩ := List.exists_cons_of_ne_nil hlit
        rw [List.nil_append, List.cons_append, breakAt?, ← List.cons_append, after?_append]
      · rename_i hnone
        obtain ⟨⟨before, r⟩, hbreak, heq⟩ := Option.map_eq_some_iff.1 h
        cases heq
        obtain ⟨rfl, hreads⟩ := ih hbreak
        refine ⟨rfl, fun rest' => ?_⟩
        -- what stands before the end of the first literal decides that it is the first
        have hlong : lit.length ≤ (c :: (before ++ lit)).length := by simp; omega
        have hnone' : after? lit (c :: (before ++ (lit ++ rest'))) = none := by
          rw [after?_eq_none] at hnone ⊢
          have hcongr := isPrefixOf_append (Or.inl hlong) rest' rest
          simp only [List.cons_append, List.append_assoc] at hcongr
          rw [hcongr, hnone]
        rw [List.cons_append, breakAt?, hnone', hreads]
        rfl

theorem hasInfix_iff (hlit : lit ≠ []) : hasInfix lit cs = true ↔ lit <:+: cs := by
  rw [hasInfix, Option.isSome_iff_exists]
  constructor
  · rintro ⟨⟨raw, rest⟩, h⟩
    obtain ⟨rfl, -⟩ := breakAt?_reads hlit h
    exact ⟨raw, rest, by simp⟩
  · intro h
    induction cs with
    | nil => exact absurd (List.infix_nil.1 h) hlit
    | cons c cs ih =>
        rw [breakAt?]
        cases hafter : after? lit (c :: cs) with
        | some rest => exact ⟨_, rfl⟩
        | none =>
            rw [after?_eq_none] at hafter
            rcases List.infix_cons_iff.1 h with hfront | hpart
            · rw [← List.isPrefixOf_iff_prefix, hafter] at hfront
              cases hfront
            · obtain ⟨x, hx⟩ := ih hpart
              exact ⟨_, by rw [hx]; rfl⟩

end Literals

section Names

variable {cs rest : List Char}

theorem name?_reads {name : String} (h : name? cs = some (name, rest)) :
    ∃ run, run ≠ [] ∧ (∀ c ∈ run, isNameChar c = true) ∧ cs = run ++ rest ∧ Stops isNameChar rest ∧
      ∀ rest', Stops isNameChar rest' → name? (run ++ rest') = some (name, rest') := by
  cases cs with
  | nil => cases h
  | cons c cs =>
      rw [name?] at h
      split at h
      · rename_i hc
        cases h
        have hrun := forall_mem_takeWhile isNameChar cs
        refine ⟨c :: cs.takeWhile isNameChar, List.cons_ne_nil _ _, ?_, ?_, stops_dropWhile _ _, fun rest' hstop => ?_⟩
        · refine List.forall_mem_cons.2 ⟨?_, hrun⟩
          simp [isNameChar, hc]
        · rw [List.cons_append, List.takeWhile_append_dropWhile]
        · rw [List.cons_append, name?, if_pos hc, takeWhile_append_stops hrun hstop, dropWhile_append_stops hrun hstop]
      · cases h

theorem qname?_reads {name : QName} (h : qname? cs = some (name, rest)) :
    ∃ run, run ≠ [] ∧ (∀ c ∈ run, isNameChar c = true) ∧ cs = run ++ rest ∧ Stops isNameChar rest ∧
      ∀ rest', Stops isNameChar rest' → qname? (run ++ rest') = some (name, rest') := by
  have hrun := forall_mem_takeWhile isNameChar cs
  have hcs : cs = cs.takeWhile isNameChar ++ cs.dropWhile isNameChar := List.takeWhile_append_dropWhile.symm
  have hstop := stops_dropWhile isNameChar cs
  have hrest : cs.dropWhile isNameChar = rest := by
    unfold qname? at h
    grind
  have hne : cs.takeWhile isNameChar ≠ [] := by
    intro hnil
    have hlength := length_qname? h
    rw [hnil, hrest, List.nil_append] at hcs
    rw [hcs] at hlength
    exact lt_irrefl _ hlength
  rw [hrest] at hcs hstop
  refine ⟨cs.takeWhile isNameChar, hne, hrun, hcs, hstop, fun rest' hstop' => ?_⟩
  unfold qname? at h ⊢
  rw [takeWhile_append_stops hrun hstop', dropWhile_append_stops hrun hstop']
  grind

end Names

section Tags

variable {cs rest : List Char}

theorem value?_reads {quote : Char} {value : List Char} (h : value? quote cs = some (value, rest)) :
    cs = value ++ quote :: rest ∧ ∀ rest', value? quote (value ++ quote :: rest') = some (value, rest') := by
  have hrun := forall_mem_takeWhile (fun c => c != quote && c != '<') cs
  have hcs := List.takeWhile_append_dropWhile (p := fun c => c != quote && c != '<') (l := cs)
  unfold value? at h
  dsimp only at h
  split at h
  · rename_i c r hr
    split at h
    · rename_i hc
      rw [Bool.and_eq_true, beq_iff_eq] at hc
      cases h
      obtain ⟨rfl, hchars⟩ := hc
      refine ⟨by rw [← hr, hcs], fun rest' => ?_⟩
      have hstop : (c != c && c != '<') = false := by simp
      rw [value?, takeWhile_append_cons hrun hstop, dropWhile_append_cons hrun hstop]
      simp [hchars]
    · cases h
  · cases h

theorem attribute?_reads {a : RawAttribute} (h : attribute? cs = some (a, rest)) :
    ∃ c tok, isNameChar c = true ∧ cs = c :: tok ++ rest ∧
      ∀ rest', attribute? (c :: tok ++ rest') = some (a, rest') := by
  unfold attribute? at h
  split at h
  · cases h
  rename_i name r hq
  split at h
  · rename_i r' hr
    split at h
    · rename_i c r'' hr'
      split at h
      · rename_i hquote
        obtain ⟨⟨value, w⟩, hv, heq⟩ := Option.map_eq_some_iff.1 h
        cases heq
        obtain ⟨run, hne, hrun, rfl, hstop, hqname⟩ := qname?_reads hq
        obtain ⟨blank, hblank, hb⟩ := exists_skipSpaces r
        obtain ⟨blank', hblank', hb'⟩ := exists_skipSpaces r'
        obtain ⟨rfl, hvalue⟩ := value?_reads hv
        rw [hr] at hb
        rw [hr'] at hb'
        have hspace : isSpace c = false := by
          rcases Bool.or_eq_true_iff.1 hquote with hc | hc
          · rw [beq_iff_eq.1 hc]; rfl
          · rw [beq_iff_eq.1 hc]; rfl
        obtain ⟨d, run, rfl⟩ := List.exists_cons_of_ne_nil hne
        refine ⟨d, run ++ (blank ++ '=' :: (blank' ++ c :: (value ++ [c]))), hrun d List.mem_cons_self,
          ?_, fun rest' => ?_⟩
        · rw [hb, hb']
          simp
        · have hstop' : Stops isNameChar (blank ++ '=' :: (blank' ++ c :: (value ++ c :: rest'))) := by
            cases blank with
            | nil => exact stops_cons (by decide)
            | cons b blank =>
                rw [hb] at hstop
                exact stops_cons (hstop b rfl)
          have htext : d :: (run ++ (blank ++ '=' :: (blank' ++ c :: (value ++ [c])))) ++ rest' =
              d :: run ++ (blank ++ '=' :: (blank' ++ c :: (value ++ c :: rest'))) := by simp
          rw [htext, attribute?, hqname _ hstop']
          simp only [skipSpaces_append_cons hblank (show isSpace '=' = false from rfl),
            skipSpaces_append_cons hblank' hspace, hquote, if_true, hvalue]
          rfl
      · cases h
    · cases h
  · cases h

def TagEnd.text : TagEnd → List Char
  | .opened => ['>']
  | .closed => ['/', '>']
  | .missing => []

section Attributes

variable {blank : List Char} (hblank : ∀ c ∈ blank, isSpace c = true)

include hblank

theorem attributes?_opened (rest : List Char) : attributes? (blank ++ '>' :: rest) = some ([], .opened, rest) := by
  have hskip : skipSpaces (blank ++ '>' :: rest) = '>' :: rest := skipSpaces_append_cons hblank (by decide) rest
  rw [attributes?]
  split
  · rename_i hr
    cases hskip.symm.trans hr
    rfl
  · rename_i hr
    cases hskip.symm.trans hr
  · rename_i hopened _
    exact absurd hskip (hopened rest)

theorem attributes?_closed (rest : List Char) :
    attributes? (blank ++ '/' :: '>' :: rest) = some ([], .closed, rest) := by
  have hskip : skipSpaces (blank ++ '/' :: '>' :: rest) = '/' :: '>' :: rest :=
    skipSpaces_append_cons hblank (by decide) _
  rw [attributes?]
  split
  · rename_i hr
    cases hskip.symm.trans hr
  · rename_i hr
    cases hskip.symm.trans hr
    rfl
  · rename_i _ hclosed
    exact absurd hskip (hclosed rest)

theorem attributes?_attribute {c : Char} {tok rest : List Char} {a : RawAttribute} (hne : blank ≠ [])
    (hc : isNameChar c = true) (h : attribute? (c :: tok ++ rest) = some (a, rest)) :
    attributes? (blank ++ (c :: tok ++ rest)) =
      (attributes? rest).map fun (as, ending, rest) => (a :: as, ending, rest) := by
  have hskip : skipSpaces (blank ++ (c :: tok ++ rest)) = c :: tok ++ rest :=
    skipSpaces_append_cons hblank (not_isSpace_of_isNameChar hc) _
  rw [← hskip] at h
  rw [attributes?]
  split
  · rename_i hr
    rw [hskip] at hr
    exact absurd (List.cons.inj hr).1 (ne_of_class hc (by decide))
  · rename_i hr
    rw [hskip] at hr
    exact absurd (List.cons.inj hr).1 (ne_of_class hc (by decide))
  · obtain ⟨d, blank, rfl⟩ := List.exists_cons_of_ne_nil hne
    rw [if_neg (by simp), if_pos (by simp [hblank d List.mem_cons_self])]
    split
    · rename_i hnone
      rw [h] at hnone
      cases hnone
    · rename_i hsome
      rw [h] at hsome
      cases hsome
      rfl

end Attributes

theorem attributes?_reads {as : List RawAttribute} {ending : TagEnd} (h : attributes? cs = some (as, ending, rest)) :
    ∃ body, cs = body ++ (ending.text ++ rest) ∧ (ending = .missing → rest = []) ∧ ∀ rest',
      (ending = .missing → rest' = []) → attributes? (body ++ (ending.text ++ rest')) = some (as, ending, rest') := by
  fun_induction attributes? cs generalizing as ending rest with
  | case1 cs r hr =>
      cases h
      obtain ⟨blank, hblank, hcs⟩ := exists_skipSpaces cs
      exact ⟨blank, by rw [hcs, hr]; rfl, by simp, fun rest' _ => attributes?_opened hblank rest'⟩
  | case2 cs r hr =>
      cases h
      obtain ⟨blank, hblank, hcs⟩ := exists_skipSpaces cs
      exact ⟨blank, by rw [hcs, hr]; rfl, by simp, fun rest' _ => attributes?_closed hblank rest'⟩
  | case3 cs hempty _ _ =>
      cases h
      refine ⟨[], List.isEmpty_iff.1 hempty, by simp, fun rest' hrest => ?_⟩
      rw [hrest rfl, attributes?]
      rfl
  | case4 => simp at h
  | case5 cs _ hspace a r ha _ _ _ ih =>
      obtain ⟨⟨more, ending', r'⟩, hmore, heq⟩ := Option.map_eq_some_iff.1 h
      cases heq
      obtain ⟨blank, hblank, hcs⟩ := exists_skipSpaces cs
      obtain ⟨c, tok, hc, hskip, hattribute⟩ := attribute?_reads ha
      obtain ⟨body, rfl, hmissing, hreads⟩ := ih hmore
      have hne : blank ≠ [] := by
        rintro rfl
        rw [hcs, List.nil_append, hskip] at hspace
        simp [not_isSpace_of_isNameChar hc] at hspace
      refine ⟨blank ++ (c :: tok ++ body), ?_, hmissing, fun rest' hrest => ?_⟩
      · rw [hcs, hskip]
        simp
      · rw [List.append_assoc, List.append_assoc, attributes?_attribute hblank hne hc (hattribute _),
          hreads rest' hrest]
        rfl
  | case6 => simp at h

end Tags

namespace Token

/-- The characters of a token. -/
inductive Spelled : Token → List Char → Prop
  | start {name : QName} {as : List RawAttribute} {ending : TagEnd} {c : Char} (hc : isNameChar c = true)
      (body : List Char) : Spelled (.start name as ending) ('<' :: c :: (body ++ ending.text))
  | stop {name : QName} (body : List Char) : Spelled (.stop name) ('<' :: '/' :: (body ++ ['>']))
  | text {raw : List Char} (hne : raw ≠ []) (htag : '<' ∉ raw) (hchars : raw.all isChar = true)
      (hend : hasInfix [']', ']', '>'] raw = false) : Spelled (.text raw) raw
  | cdata {raw : List Char} (hchars : raw.all isChar = true) :
      Spelled (.cdata raw) ("<![CDATA[".toList ++ (raw ++ [']', ']', '>']))
  | comment {raw : List Char} : Spelled (.comment raw) ("<!--".toList ++ (raw ++ ['-', '-', '>']))
  | instruction {target : String} {raw : List Char} (body : List Char) :
      Spelled (.instruction target raw) ('<' :: '?' :: (body ++ ['?', '>']))

/-- What may follow a token in the text. -/
def Follows (rest : List Char) : Token → Prop
  | .text _ => Stops (· != '<') rest
  | .start _ _ .missing => rest = []
  | _ => True

/-- A token is read from the beginning of a text, and in the same way before everything that may follow it. -/
def Takes (t : Token) (cs rest : List Char) : Prop :=
  ∃ tok, t.Spelled tok ∧ cs = tok ++ rest ∧ t.Follows rest ∧
    ∀ rest', t.Follows rest' → next? (tok ++ rest') = some (t, rest')

section Takes

variable {cs raw rest : List Char}

theorem takes_comment (hb : breakAt? ['-', '-', '>'] cs = some (raw, rest))
    (hlegal : (raw.all isChar && !hasInfix ['-', '-'] raw && raw.getLast? != some '-') = true) :
    Takes (.comment raw) ('<' :: '!' :: '-' :: '-' :: cs) rest := by
  obtain ⟨rfl, hbreak⟩ := breakAt?_reads (by simp) hb
  refine ⟨_, .comment, by simp, trivial, fun rest' _ => ?_⟩
  have htext : "<!--".toList ++ (raw ++ ['-', '-', '>']) ++ rest' =
      '<' :: '!' :: '-' :: '-' :: (raw ++ (['-', '-', '>'] ++ rest')) := by simp
  rw [htext, next?, hbreak]
  simp only [hlegal, if_true]

theorem takes_cdata {body : List Char} (ha : after? "[CDATA[".toList cs = some body)
    (hb : breakAt? [']', ']', '>'] body = some (raw, rest)) (hchars : raw.all isChar = true) :
    Takes (.cdata raw) ('<' :: '!' :: cs) rest := by
  obtain rfl := after?_eq_some.1 ha
  obtain ⟨rfl, hbreak⟩ := breakAt?_reads (by simp) hb
  refine ⟨_, .cdata hchars, by simp, trivial, fun rest' _ => ?_⟩
  have htext : "<![CDATA[".toList ++ (raw ++ [']', ']', '>']) ++ rest' =
      '<' :: '!' :: ("[CDATA[".toList ++ (raw ++ ([']', ']', '>'] ++ rest'))) := by simp
  have hbracket (cs ds : List Char) : "[CDATA[".toList ++ cs ≠ '-' :: '-' :: ds := by simp
  rw [htext, next?.eq_2 _ (hbracket _), after?_append]
  simp only [hbreak, hchars, if_true]

theorem takes_instruction {target : String} {body : List Char} (hxml : ¬"xml ".toList.isPrefixOf cs = true)
    (hn : name? cs = some (target, body)) (hb : breakAt? ['?', '>'] (skipSpaces body) = some (raw, rest))
    (hchars : raw.all isChar = true) : Takes (.instruction target raw) ('<' :: '?' :: cs) rest := by
  obtain ⟨run, -, -, rfl, hstop, hname⟩ := name?_reads hn
  obtain ⟨blank, hblank, hbody⟩ := exists_skipSpaces body
  obtain ⟨hskip, hbreak⟩ := breakAt?_reads (by simp) hb
  have hstops : Stops isSpace (skipSpaces body) := stops_dropWhile isSpace body
  rw [hskip] at hbody hstops
  rw [hbody] at hstop hxml
  refine ⟨_, .instruction (run ++ (blank ++ raw)), by rw [hbody]; simp, trivial, fun rest' _ => ?_⟩
  have htext : '<' :: '?' :: (run ++ (blank ++ raw) ++ ['?', '>']) ++ rest' =
      '<' :: '?' :: (run ++ (blank ++ (raw ++ (['?', '>'] ++ rest')))) := by simp
  have hxml' : ¬"xml ".toList.isPrefixOf (run ++ (blank ++ (raw ++ (['?', '>'] ++ rest')))) = true := by
    -- the mark that ends an instruction does not occur in the word
    have hcongr : "xml ".toList.isPrefixOf (run ++ (blank ++ (raw ++ ['?', '>'])) ++ rest') =
        "xml ".toList.isPrefixOf (run ++ (blank ++ (raw ++ ['?', '>'])) ++ rest) :=
      isPrefixOf_append (Or.inr ⟨'?', by simp, by decide⟩) rest' rest
    simp only [List.append_assoc] at hcongr
    rwa [hcongr]
  have hstop' : Stops isNameChar (blank ++ (raw ++ (['?', '>'] ++ rest'))) := by
    have := Stops.congr (blank ++ (raw ++ ['?', '>'])) rest rest' (by simp) (by simpa using hstop)
    simpa using this
  have hstops' : Stops isSpace (raw ++ (['?', '>'] ++ rest')) := by
    have := Stops.congr (raw ++ ['?', '>']) rest rest' (by simp) (by simpa using hstops)
    simpa using this
  rw [htext, next?, if_neg hxml', hname _ hstop']
  simp only [skipSpaces_append hblank hstops', hbreak, hchars, if_true]

theorem takes_stop {name : QName} {body : List Char} (hq : qname? cs = some (name, body))
    (hend : skipSpaces body = '>' :: rest) : Takes (.stop name) ('<' :: '/' :: cs) rest := by
  obtain ⟨run, -, -, rfl, hstop, hname⟩ := qname?_reads hq
  obtain ⟨blank, hblank, hbody⟩ := exists_skipSpaces body
  rw [hend] at hbody
  rw [hbody] at hstop
  refine ⟨_, .stop (run ++ blank), by rw [hbody]; simp, trivial, fun rest' _ => ?_⟩
  have htext : '<' :: '/' :: (run ++ blank ++ ['>']) ++ rest' =
      '<' :: '/' :: (run ++ (blank ++ '>' :: rest')) := by simp
  have hstop' : Stops isNameChar (blank ++ '>' :: rest') := by
    have := Stops.congr (blank ++ ['>']) rest rest' (by simp) (by simpa using hstop)
    simpa using this
  rw [htext, next?, hname _ hstop']
  simp only [skipSpaces_append_cons hblank (show isSpace '>' = false from rfl)]

theorem takes_start {name : QName} {as : List RawAttribute} {ending : TagEnd} {body : List Char}
    (hq : qname? cs = some (name, body)) (has : attributes? body = some (as, ending, rest)) :
    Takes (.start name as ending) ('<' :: cs) rest := by
  obtain ⟨run, hne, hrun, rfl, hstop, hname⟩ := qname?_reads hq
  obtain ⟨tail, rfl, hmissing, hattributes⟩ := attributes?_reads has
  obtain ⟨d, run, rfl⟩ := List.exists_cons_of_ne_nil hne
  have hfollows (rest : List Char) : Follows rest (.start name as ending) ↔ (ending = .missing → rest = []) := by
    cases ending <;> simp [Follows]
  have hd := hrun d List.mem_cons_self
  refine ⟨_, .start hd (run ++ tail), by simp, (hfollows rest).2 hmissing, fun rest' hrest => ?_⟩
  rw [hfollows] at hrest
  have htext : '<' :: d :: (run ++ tail ++ ending.text) ++ rest' =
      '<' :: (d :: run ++ (tail ++ (ending.text ++ rest'))) := by simp
  have hstop' : Stops isNameChar (tail ++ (ending.text ++ rest')) := by
    by_cases hend : ending = .missing
    · rw [hrest hend, ← hmissing hend]
      exact hstop
    · have hne : tail ++ ending.text ≠ [] := by cases ending <;> simp_all [TagEnd.text]
      have := Stops.congr (tail ++ ending.text) rest rest' hne (by simpa using hstop)
      simpa using this
  have hother {c : Char} {cs : List Char} (hc : isNameChar c = false) :
      d :: run ++ (tail ++ (ending.text ++ rest')) ≠ c :: cs :=
    fun heq => ne_of_class hd hc (List.cons.inj heq).1
  rw [htext, next?.eq_5 _ (fun _ => hother (by decide)) (fun _ => hother (by decide)) (fun _ => hother (by decide))
    (fun _ => hother (by decide)), hname _ hstop']
  simp only [hattributes rest' hrest]
  rfl

theorem takes_text {c : Char} (hc : c ≠ '<')
    (hlegal : ((c :: cs.takeWhile (· != '<')).all isChar &&
      !hasInfix [']', ']', '>'] (c :: cs.takeWhile (· != '<'))) = true) :
    Takes (.text (c :: cs.takeWhile (· != '<'))) (c :: cs) (cs.dropWhile (· != '<')) := by
  have hrun := forall_mem_takeWhile (· != '<') cs
  have hlegal' := hlegal
  rw [Bool.and_eq_true, Bool.not_eq_true'] at hlegal'
  have htag : '<' ∉ c :: cs.takeWhile (· != '<') := by
    rw [List.mem_cons, not_or]
    exact ⟨hc.symm, fun hm => by simpa using hrun _ hm⟩
  refine ⟨_, .text (List.cons_ne_nil _ _) htag hlegal'.1 hlegal'.2, ?_, stops_dropWhile _ _, fun rest' hrest => ?_⟩
  · rw [List.cons_append, List.takeWhile_append_dropWhile]
  · rw [List.cons_append, next?.eq_7 _ _ (fun _ h => absurd h hc) (fun _ h => absurd h hc) (fun _ h => absurd h hc)
      (fun _ h => absurd h hc) hc, takeWhile_append_stops hrun hrest, dropWhile_append_stops hrun hrest]
    simp only [hlegal, if_true]

end Takes

theorem takes_of_next? {t : Token} {cs rest : List Char} (h : next? cs = some (t, rest)) : t.Takes cs rest := by
  unfold next? at h
  split at h
  · split at h
    · split at h
      · cases h
        exact takes_comment ‹_› ‹_›
      · cases h
    · cases h
  · split at h
    · split at h
      · split at h
        · cases h
          exact takes_cdata ‹_› ‹_› ‹_›
        · cases h
      · cases h
    · cases h
  · split at h
    · cases h
    · split at h
      · split at h
        · split at h
          · cases h
            exact takes_instruction ‹_› ‹_› ‹_› ‹_›
          · cases h
        · cases h
      · cases h
  · split at h
    · split at h
      · cases h
        exact takes_stop ‹_› ‹_›
      · cases h
    · cases h
  · split at h
    · obtain ⟨⟨as, ending, r⟩, has, heq⟩ := Option.map_eq_some_iff.1 h
      cases heq
      exact takes_start ‹_› has
    · cases h
  · cases h
  · dsimp only at h
    split at h
    · cases h
      exact takes_text ‹_› ‹_›
    · cases h

end Token

end Bisection.Xml
