import Mathlib
import Bisection.Proofs.Scanning

namespace Bisection.Xml

section Local

variable {cs mid r : List Char}

theorem isPrefixOf_closed {tok lit : List Char} (hclose : '>' ∈ tok) (hlit : '>' ∉ lit) (v w : List Char) :
    lit.isPrefixOf (tok ++ v) = lit.isPrefixOf (tok ++ w) := isPrefixOf_append (.inr ⟨'>', hclose, hlit⟩) v w

theorem skipSpaces_local (h : skipSpaces cs = mid ++ r) (hne : mid ≠ []) :
    ∃ blank, (∀ c ∈ blank, isSpace c = true) ∧ cs = blank ++ (mid ++ r) ∧
      ∀ r', skipSpaces (blank ++ (mid ++ r')) = mid ++ r' := by
  obtain ⟨blank, hblank, hcs⟩ := exists_skipSpaces cs
  have hstop : Stops isSpace (mid ++ r) := h ▸ stops_dropWhile isSpace cs
  rw [h] at hcs
  exact ⟨blank, hblank, hcs, fun r' => skipSpaces_append hblank (hstop.congr mid r r' hne)⟩

theorem spaces?_local (h : spaces? cs = some (mid ++ r)) (hne : mid ≠ []) :
    ∃ tok, cs = tok ++ (mid ++ r) ∧ ∀ r', spaces? (tok ++ (mid ++ r')) = some (mid ++ r') := by
  unfold spaces? at h
  split at h
  · rename_i hspace
    have hskip := Option.some.inj h
    obtain ⟨blank, hblank, rfl, hlocal⟩ := skipSpaces_local hskip hne
    refine ⟨blank, rfl, fun r' => ?_⟩
    cases blank with
    | nil =>
        have hstop : Stops isSpace (mid ++ r) := hskip ▸ stops_dropWhile isSpace _
        obtain ⟨c, mid, rfl⟩ := List.exists_cons_of_ne_nil hne
        simp [hstop c rfl] at hspace
    | cons c blank =>
        rw [spaces?, hlocal]
        simp [hblank c List.mem_cons_self]
  · cases h

theorem name?_local {name : String} (h : name? cs = some (name, mid ++ r)) (hne : mid ≠ []) :
    ∃ tok, cs = tok ++ (mid ++ r) ∧ ∀ r', name? (tok ++ (mid ++ r')) = some (name, mid ++ r') := by
  obtain ⟨run, -, -, rfl, hstop, hname⟩ := name?_reads h
  exact ⟨run, rfl, fun r' => hname _ (hstop.congr mid r r' hne)⟩

theorem literal?_reads {value rest : List Char} (h : literal? cs = some (value, rest)) :
    ∃ tok, tok ≠ [] ∧ cs = tok ++ rest ∧ ∀ rest', literal? (tok ++ rest') = some (value, rest') := by
  cases cs with
  | nil => cases h
  | cons c cs =>
      rw [literal?] at h
      split at h
      · rename_i hquote
        obtain ⟨rfl, hbreak⟩ := breakAt?_reads (by simp) h
        refine ⟨c :: (value ++ [c]), by simp, by simp, fun rest' => ?_⟩
        have htext : c :: (value ++ [c]) ++ rest' = c :: (value ++ ([c] ++ rest')) := by simp
        rw [htext, literal?, if_pos hquote, hbreak]
      · cases h

theorem spaced_literal?_reads {value rest between : List Char} (hspaces : spaces? cs = some between)
    (h : literal? between = some (value, rest)) :
    ∃ tok, cs = tok ++ rest ∧ ∀ rest', ∃ between', spaces? (tok ++ rest') = some between' ∧
      literal? between' = some (value, rest') := by
  obtain ⟨lit, hne, rfl, hliteral⟩ := literal?_reads h
  obtain ⟨tok, rfl, hlocal⟩ := spaces?_local hspaces hne
  refine ⟨tok ++ lit, by simp, fun rest' => ⟨lit ++ rest', ?_, hliteral rest'⟩⟩
  rw [List.append_assoc, hlocal]

theorem externalId?_reads {rest : List Char} (h : externalId? cs = some rest) :
    ∃ tok, (∃ c ∈ tok.head?, c = 'S' ∨ c = 'P') ∧ cs = tok ++ rest ∧
      ∀ rest', externalId? (tok ++ rest') = some rest' := by
  unfold externalId? at h
  split at h
  · rename_i body hsystem
    simp only [Option.bind_eq_bind, Option.bind_eq_some_iff, Prod.exists, Option.pure_def, Option.some.injEq] at h
    obtain ⟨between, hspaces, value, _, hliteral, rfl⟩ := h
    obtain ⟨tok, rfl, hreads⟩ := spaced_literal?_reads hspaces hliteral
    obtain rfl := after?_eq_some.1 hsystem
    refine ⟨"SYSTEM".toList ++ tok, ⟨'S', rfl, .inl rfl⟩, by simp, fun rest' => ?_⟩
    obtain ⟨between', hspaces', hliteral'⟩ := hreads rest'
    rw [List.append_assoc, externalId?, after?_append]
    simp [hspaces', hliteral']
  · simp only [Option.bind_eq_bind, Option.bind_eq_some_iff, Prod.exists, Option.pure_def, Option.some.injEq] at h
    obtain ⟨body, hpublic, between, hspaces, value, next, hliteral, between₂, hspaces₂, value₂, _, hliteral₂, rfl⟩ := h
    obtain ⟨tok₂, rfl, hreads₂⟩ := spaced_literal?_reads hspaces₂ hliteral₂
    obtain ⟨tok, rfl, hreads⟩ := spaced_literal?_reads hspaces hliteral
    obtain rfl := after?_eq_some.1 hpublic
    refine ⟨"PUBLIC".toList ++ (tok ++ tok₂), ⟨'P', rfl, .inr rfl⟩, by simp, fun rest' => ?_⟩
    obtain ⟨between', hspaces', hliteral'⟩ := hreads (tok₂ ++ rest')
    obtain ⟨between₂', hspaces₂', hliteral₂'⟩ := hreads₂ rest'
    have hsystem : after? "SYSTEM".toList ("PUBLIC".toList ++ (tok ++ (tok₂ ++ rest'))) = none := rfl
    rw [List.append_assoc, List.append_assoc, externalId?, hsystem]
    simp only [after?_append]
    simp [hspaces', hliteral', hspaces₂', hliteral₂']

theorem exists_skipSpaces_append (hm : '>' ∈ mid) :
    ∃ kept, '>' ∈ kept ∧ ∀ r, skipSpaces (mid ++ r) = kept ++ r := by
  obtain ⟨blank, hblank, hmid⟩ := exists_skipSpaces mid
  have hkept : '>' ∈ skipSpaces mid := by
    rw [hmid, List.mem_append] at hm
    exact hm.resolve_left fun hspace => by simpa [isSpace] using hblank _ hspace
  refine ⟨skipSpaces mid, hkept, fun r => ?_⟩
  have hstop : Stops isSpace (skipSpaces mid ++ []) := by
    rw [List.append_nil]
    exact stops_dropWhile isSpace mid
  nth_rewrite 1 [hmid]
  rw [List.append_assoc, skipSpaces_append hblank (hstop.congr _ _ r (List.ne_nil_of_mem hkept))]

theorem notationName?_local (h : notationName? cs = some (mid ++ r)) (hm : '>' ∈ mid) :
    ∃ tok, cs = tok ++ (mid ++ r) ∧ ∀ r', notationName? (tok ++ (mid ++ r')) = some (mid ++ r') := by
  have hne : mid ≠ [] := List.ne_nil_of_mem hm
  unfold notationName? at h
  split at h
  · rename_i body hdata
    simp only [Option.bind_eq_bind, Option.bind_eq_some_iff, Prod.exists, Option.pure_def, Option.some.injEq] at h
    obtain ⟨between, hspaces, name, _, hname, rfl⟩ := h
    obtain ⟨run, rfl, hname'⟩ := name?_local hname hne
    rw [← List.append_assoc] at hspaces
    obtain ⟨gap, rfl, hspaces'⟩ := spaces?_local hspaces (by simp [hne])
    rw [after?_eq_some, ← List.append_assoc, ← List.append_assoc] at hdata
    obtain ⟨blank, -, rfl, hskip⟩ := skipSpaces_local hdata (by simp)
    refine ⟨blank ++ ("NDATA".toList ++ (gap ++ run)), by simp, fun r' => ?_⟩
    have htext : blank ++ ("NDATA".toList ++ (gap ++ run)) ++ (mid ++ r') =
        blank ++ ("NDATA".toList ++ gap ++ (run ++ mid) ++ r') := by simp
    have hgap : spaces? (gap ++ (run ++ (mid ++ r'))) = some (run ++ (mid ++ r')) := by simpa using hspaces' r'
    rw [htext, notationName?, hskip, List.append_assoc, List.append_assoc, after?_append]
    simp [hgap, hname']
  · rename_i hdata
    cases h
    refine ⟨[], rfl, fun r' => ?_⟩
    obtain ⟨kept, hkept, hskip⟩ := exists_skipSpaces_append hm
    have hdata' : after? "NDATA".toList (skipSpaces (mid ++ r')) = none := by
      rw [after?_eq_none, hskip] at hdata ⊢
      rw [isPrefixOf_closed hkept (by decide) r' r]
      exact hdata
    rw [List.nil_append, notationName?, hdata']

theorem percent?_local {parameter : Bool} (h : percent? cs = some (parameter, mid ++ r)) (hne : mid ≠ []) :
    ∃ tok, cs = tok ++ (mid ++ r) ∧ ∀ r', percent? (tok ++ (mid ++ r')) = some (parameter, mid ++ r') := by
  unfold percent? at h
  split at h
  · obtain ⟨_, hspaces, heq⟩ := Option.map_eq_some_iff.1 h
    cases heq
    obtain ⟨tok, rfl, hspaces'⟩ := spaces?_local hspaces hne
    refine ⟨'%' :: tok, rfl, fun r' => ?_⟩
    rw [List.cons_append, percent?, hspaces']
    rfl
  · rename_i hpercent
    cases h
    refine ⟨[], rfl, fun r' => ?_⟩
    obtain ⟨c, mid, rfl⟩ := List.exists_cons_of_ne_nil hne
    rw [List.nil_append, percent?]
    intro tail heq
    cases heq
    exact hpercent _ rfl

theorem definition?_local {parameter : Bool} {value : Option (List Char)}
    (h : definition? parameter cs = some (value, mid ++ r)) (hm : '>' ∈ mid) :
    ∃ tok, tok ≠ [] ∧ cs = tok ++ (mid ++ r) ∧
      ∀ r', definition? parameter (tok ++ (mid ++ r')) = some (value, mid ++ r') := by
  unfold definition? at h
  split at h
  · rename_i hliteral
    cases h
    obtain ⟨tok, htok, rfl, hliteral'⟩ := literal?_reads hliteral
    refine ⟨tok, htok, rfl, fun r' => ?_⟩
    rw [definition?, hliteral']
  · split at h
    · rename_i rest hexternal
      obtain ⟨tok, ⟨c, hc, hword⟩, rfl, hexternal'⟩ := externalId?_reads hexternal
      have hnone (cs : List Char) : literal? (tok ++ cs) = none := by
        cases tok with
        | nil => cases hc
        | cons d tok =>
            cases hc
            rcases hword with rfl | rfl <;> rfl
      have htok : tok ≠ [] := by
        rintro rfl
        cases hc
      split at h
      · rename_i hparameter
        cases h
        refine ⟨tok, htok, rfl, fun r' => ?_⟩
        rw [definition?, hnone]
        simp only [hexternal', if_pos hparameter]
      · rename_i hparameter
        obtain ⟨_, hnotation, heq⟩ := Option.map_eq_some_iff.1 h
        cases heq
        obtain ⟨more, rfl, hnotation'⟩ := notationName?_local hnotation hm
        refine ⟨tok ++ more, by simp [htok], by simp, fun r' => ?_⟩
        rw [List.append_assoc, definition?, hnone]
        simp only [hexternal', if_neg hparameter, hnotation']
        rfl
    · cases h

theorem entity?_reads {e : Option Entity} {rest : List Char} (h : entity? cs = some (e, rest)) :
    ∃ tok, '>' ∈ tok ∧ cs = tok ++ rest ∧ ∀ rest', entity? (tok ++ rest') = some (e, rest') := by
  simp only [entity?, Option.bind_eq_bind, Option.bind_eq_some_iff, Prod.exists, Option.pure_def, Option.some.injEq,
    Prod.mk.injEq] at h
  obtain ⟨a, ha, parameter, b, hb, name, c, hc, d, hd, value, f, hf, g, hg, rfl, rfl⟩ := h
  have hclose : skipSpaces f = ['>'] ++ g := after?_eq_some.1 hg
  obtain ⟨blank, -, rfl, hskip⟩ := skipSpaces_local hclose (by simp)
  rw [← List.append_assoc] at hf
  obtain ⟨tok₄, hne, rfl, hdefinition⟩ := definition?_local hf (by simp)
  rw [← List.append_assoc] at hd
  obtain ⟨tok₃, rfl, hspaces₃⟩ := spaces?_local hd (by simp)
  rw [← List.append_assoc] at hc
  obtain ⟨tok₂, rfl, hname⟩ := name?_local hc (by simp)
  rw [← List.append_assoc] at hb
  obtain ⟨tok₁, rfl, hpercent⟩ := percent?_local hb (by simp)
  rw [← List.append_assoc] at ha
  obtain ⟨tok₀, rfl, hspaces₀⟩ := spaces?_local ha (by simp)
  refine ⟨tok₀ ++ (tok₁ ++ (tok₂ ++ (tok₃ ++ (tok₄ ++ (blank ++ ['>']))))), by simp, by simp, fun rest' => ?_⟩
  simp only [List.append_assoc] at hspaces₀ hpercent hname hspaces₃ hdefinition hskip ⊢
  simp only [entity?, Option.bind_eq_bind, hspaces₀, Option.bind_some, hpercent, hname, hspaces₃, hdefinition, hskip,
    after?_append]
  rfl

theorem next?_marked {t : Token} {rest : List Char}
    (hmark : ("<!--".toList.isPrefixOf cs || "<?".toList.isPrefixOf cs) = true) (h : Token.next? cs = some (t, rest)) :
    ∃ tok, '>' ∈ tok ∧ cs = tok ++ rest ∧ ∀ rest', Token.next? (tok ++ rest') = some (t, rest') := by
  obtain ⟨tok, hspelled, rfl, -, htakes⟩ := Token.takes_of_next? h
  simp only [Bool.or_eq_true, List.isPrefixOf_iff_prefix] at hmark
  cases hspelled with
  | @start name as ending c hc body =>
      have hbang : c ≠ '!' := ne_of_class hc (by decide)
      have hquery : c ≠ '?' := ne_of_class hc (by decide)
      simp [hbang.symm, hquery.symm] at hmark
  | stop body => simp at hmark
  | text hne htag =>
      obtain ⟨c, raw, rfl⟩ := List.exists_cons_of_ne_nil hne
      obtain ⟨hc, -⟩ := not_or.1 (mt List.mem_cons.2 htag)
      simp [hc] at hmark
  | cdata => simp at hmark
  | comment => exact ⟨_, by simp, rfl, fun rest' => htakes rest' trivial⟩
  | instruction body => exact ⟨_, by simp, rfl, fun rest' => htakes rest' trivial⟩

theorem declaration?_reads {e : Option Entity} {rest : List Char} (h : declaration? cs = some (e, rest)) :
    ∃ tok, '>' ∈ tok ∧ cs = tok ++ rest ∧ ∀ rest', declaration? (tok ++ rest') = some (e, rest') := by
  unfold declaration? at h
  split at h
  · rename_i body hentity
    obtain ⟨tok, hclose, rfl, hreads⟩ := entity?_reads h
    obtain rfl := after?_eq_some.1 hentity
    refine ⟨"<!ENTITY".toList ++ tok, by simp [hclose], by simp, fun rest' => ?_⟩
    rw [List.append_assoc, declaration?, after?_append]
    exact hreads rest'
  · rename_i hentity
    rw [after?_eq_none] at hentity
    split at h
    · rename_i hmark
      obtain ⟨⟨t, _⟩, hnext, heq⟩ := Option.map_eq_some_iff.1 h
      cases heq
      obtain ⟨tok, hclose, rfl, hreads⟩ := next?_marked hmark hnext
      refine ⟨tok, hclose, rfl, fun rest' => ?_⟩
      have hnone : after? "<!ENTITY".toList (tok ++ rest') = none := by
        rw [after?_eq_none, isPrefixOf_closed hclose (by decide) rest' rest, hentity]
      have hmark' : ("<!--".toList.isPrefixOf (tok ++ rest') || "<?".toList.isPrefixOf (tok ++ rest')) = true := by
        rw [isPrefixOf_closed hclose (by decide) rest' rest, isPrefixOf_closed hclose (by decide) rest' rest, hmark]
      rw [declaration?, hnone]
      simp only [hmark', if_true, hreads]
      rfl
    · rename_i hmark
      split at h
      · rename_i hskipped
        obtain ⟨⟨raw, _⟩, hbreak, heq⟩ := Option.map_eq_some_iff.1 h
        cases heq
        obtain ⟨rfl, hreads⟩ := breakAt?_reads (by simp) hbreak
        have hclose : '>' ∈ raw ++ ['>'] := by simp
        rw [← List.append_assoc] at hentity hmark hskipped
        refine ⟨raw ++ ['>'], hclose, by simp, fun rest' => ?_⟩
        have hkeyword {lit : List Char} (hlit : '>' ∉ lit) :
            lit.isPrefixOf (raw ++ ['>'] ++ rest') = lit.isPrefixOf (raw ++ ['>'] ++ rest) :=
          isPrefixOf_closed hclose hlit rest' rest
        have hnone : after? "<!ENTITY".toList (raw ++ ['>'] ++ rest') = none := by
          rw [after?_eq_none, hkeyword (by decide), hentity]
        rw [declaration?, hnone]
        simp only [hkeyword (show '>' ∉ "<!--".toList by decide), hkeyword (show '>' ∉ "<?".toList by decide),
          hkeyword (show '>' ∉ "<!ELEMENT".toList by decide), hkeyword (show '>' ∉ "<!ATTLIST".toList by decide),
          hkeyword (show '>' ∉ "<!NOTATION".toList by decide), hmark, hskipped, if_true]
        rw [List.append_assoc, hreads]
        rfl
      · cases h

theorem subset?_of_bracket {body : List Char} (h : after? [']'] (skipSpaces cs) = some body) :
    subset? cs = (after? ['>'] (skipSpaces body)).map fun rest => ([], rest) := by
  rw [subset?]
  split
  · rename_i hbody
    cases h.symm.trans hbody
    rfl
  · rename_i hnone
    cases h.symm.trans hnone

theorem subset?_of_declaration {e : Option Entity} {rest : List Char} (hnone : after? [']'] (skipSpaces cs) = none)
    (h : declaration? (skipSpaces cs) = some (e, rest)) :
    subset? cs = (subset? rest).map fun (es, rest) => (e.toList ++ es, rest) := by
  rw [subset?]
  split
  · rename_i hbody
    cases hnone.symm.trans hbody
  · split
    · rename_i hfault
      cases h.symm.trans hfault
    · rename_i hdeclaration
      cases h.symm.trans hdeclaration
      rfl

theorem subset?_reads {es : List Entity} {rest : List Char} (h : subset? cs = some (es, rest)) :
    ∃ tok, '>' ∈ tok ∧ cs = tok ++ rest ∧ ∀ rest', subset? (tok ++ rest') = some (es, rest') := by
  fun_induction subset? cs generalizing es with
  | case1 cs body hbracket =>
      obtain ⟨_, hclose, heq⟩ := Option.map_eq_some_iff.1 h
      cases heq
      rw [after?_eq_some] at hclose hbracket
      obtain ⟨blank, -, rfl, hskip⟩ := skipSpaces_local hclose (by simp)
      rw [← List.append_assoc, ← List.append_assoc] at hbracket
      obtain ⟨blank', -, rfl, hskip'⟩ := skipSpaces_local hbracket (by simp)
      refine ⟨blank' ++ ([']'] ++ blank ++ ['>']), by simp, by simp, fun rest' => ?_⟩
      have hbracket' : after? [']'] (skipSpaces (blank' ++ ([']'] ++ blank ++ ['>'] ++ rest'))) =
          some (blank ++ (['>'] ++ rest')) := by
        rw [hskip', List.append_assoc, List.append_assoc, after?_append]
      rw [List.append_assoc, subset?_of_bracket hbracket', hskip, after?_append]
      rfl
  | case2 => cases h
  | case3 cs hbracket e r hdeclaration _ ih =>
      obtain ⟨⟨more, _⟩, hmore, heq⟩ := Option.map_eq_some_iff.1 h
      cases heq
      obtain ⟨tok, hclose, rfl, hreads⟩ := ih hmore
      obtain ⟨tok', hclose', hskip, hdeclaration'⟩ := declaration?_reads hdeclaration
      have hne : tok' ≠ [] := List.ne_nil_of_mem hclose'
      obtain ⟨blank, -, rfl, hskip'⟩ := skipSpaces_local hskip hne
      refine ⟨blank ++ (tok' ++ tok), by simp [hclose], by simp, fun rest' => ?_⟩
      have hbracket' : after? [']'] (skipSpaces (blank ++ (tok' ++ (tok ++ rest')))) = none := by
        rw [after?_eq_none, hskip] at hbracket
        have hlength : [']'].length ≤ tok'.length := List.length_pos_of_ne_nil hne
        rw [after?_eq_none, hskip', isPrefixOf_append (.inl hlength) _ (tok ++ rest), hbracket]
      have hsubset := subset?_of_declaration hbracket' (by rw [hskip']; exact hdeclaration' _)
      rw [List.append_assoc, List.append_assoc, hsubset, hreads]
      rfl

def Placed (cs rest : List Char) : Prop :=
  if ("SYSTEM".toList.isPrefixOf (skipSpaces cs) || "PUBLIC".toList.isPrefixOf (skipSpaces cs)) = true then
    externalId? (skipSpaces cs) = some rest
  else skipSpaces cs = rest

def Ends (cs : List Char) (es : List Entity) (rest : List Char) : Prop :=
  es = [] ∧ skipSpaces cs = ['>'] ++ rest ∨ ∃ body, skipSpaces cs = ['['] ++ body ∧ subset? body = some (es, rest)

theorem doctype?_eq_some {es : List Entity} {rest : List Char} : doctype? cs = some (es, rest) ↔
    ∃ a name b c, spaces? cs = some a ∧ name? a = some (name, b) ∧ Placed b c ∧ Ends c es rest := by
  simp only [doctype?, Option.bind_eq_bind, Option.bind_eq_some_iff, Prod.exists]
  constructor
  · rintro ⟨a, hspaces, name, b, hname, h⟩
    split at h
    · rename_i hplace
      obtain ⟨c, hexternal, h⟩ := Option.bind_eq_some_iff.1 h
      refine ⟨a, name, b, c, hspaces, hname, by rwa [Placed, if_pos hplace], ?_⟩
      unfold Ends
      grind
    · rename_i hplace
      rw [Option.bind_some] at h
      refine ⟨a, name, b, skipSpaces b, hspaces, hname, by rw [Placed, if_neg hplace], ?_⟩
      unfold Ends
      grind
  · rintro ⟨a, name, b, c, hspaces, hname, hplaced, hends⟩
    refine ⟨a, hspaces, name, b, hname, ?_⟩
    unfold Placed at hplaced
    split at hplaced <;> rename_i hplace
    · rw [if_pos hplace, hplaced, Option.bind_some]
      rcases hends with ⟨rfl, hskip⟩ | ⟨body, hskip, hsubset⟩
      · rw [hskip]; rfl
      · rw [hskip]; exact hsubset
    · rw [if_neg hplace, hplaced, Option.bind_some]
      rcases hends with ⟨rfl, hskip⟩ | ⟨body, hskip, hsubset⟩
      · rw [hskip]; rfl
      · rw [hskip]; exact hsubset

theorem Ends.reads {es : List Entity} {rest : List Char} (h : Ends cs es rest) :
    ∃ tok, '>' ∈ tok ∧ cs = tok ++ rest ∧ ∀ rest', Ends (tok ++ rest') es rest' := by
  rcases h with ⟨rfl, hskip⟩ | ⟨body, hskip, hsubset⟩
  · obtain ⟨blank, -, rfl, hskip'⟩ := skipSpaces_local hskip (by simp)
    refine ⟨blank ++ ['>'], by simp, by simp, fun rest' => .inl ⟨rfl, ?_⟩⟩
    rw [List.append_assoc, hskip']
  · obtain ⟨tok, hclose, rfl, hreads⟩ := subset?_reads hsubset
    obtain ⟨blank, -, rfl, hskip'⟩ := skipSpaces_local hskip (by simp)
    refine ⟨blank ++ (['['] ++ tok), by simp [hclose], by simp, fun rest' => .inr ⟨tok ++ rest', ?_, hreads rest'⟩⟩
    rw [List.append_assoc, List.append_assoc, hskip']

theorem Placed.reads (h : Placed cs (mid ++ r)) (hm : '>' ∈ mid) :
    ∃ tok, tok ≠ [] ∧ cs = tok ++ r ∧ ∀ r', Placed (tok ++ r') (mid ++ r') := by
  have hkeyword {tok : List Char} (hclose : '>' ∈ tok) (r' : List Char) :
      ("SYSTEM".toList.isPrefixOf (tok ++ r') || "PUBLIC".toList.isPrefixOf (tok ++ r')) =
        ("SYSTEM".toList.isPrefixOf (tok ++ r) || "PUBLIC".toList.isPrefixOf (tok ++ r)) := by
    rw [isPrefixOf_closed hclose (by decide) r' r, isPrefixOf_closed hclose (by decide) r' r]
  unfold Placed at h
  split at h
  · rename_i hplace
    obtain ⟨tok, -, hskip, hexternal⟩ := externalId?_reads h
    rw [← List.append_assoc] at hskip
    have hclose : '>' ∈ tok ++ mid := by simp [hm]
    obtain ⟨blank, -, rfl, hskip'⟩ := skipSpaces_local hskip (List.ne_nil_of_mem hclose)
    refine ⟨blank ++ (tok ++ mid), by simp [List.ne_nil_of_mem hm], by simp, fun r' => ?_⟩
    rw [hskip'] at hplace
    rw [List.append_assoc, Placed, hskip', hkeyword hclose, if_pos hplace, List.append_assoc, hexternal]
  · rename_i hplace
    obtain ⟨blank, -, rfl, hskip'⟩ := skipSpaces_local h (List.ne_nil_of_mem hm)
    refine ⟨blank ++ mid, by simp [List.ne_nil_of_mem hm], by simp, fun r' => ?_⟩
    rw [hskip'] at hplace
    rw [List.append_assoc, Placed, hskip', hkeyword hm, if_neg hplace]

theorem doctype?_reads {es : List Entity} {rest : List Char} (h : doctype? cs = some (es, rest)) :
    ∃ tok, cs = tok ++ rest ∧ ∀ rest', doctype? (tok ++ rest') = some (es, rest') := by
  obtain ⟨a, name, b, c, hspaces, hname, hplaced, hends⟩ := doctype?_eq_some.1 h
  obtain ⟨tok₂, hclose, rfl, hends'⟩ := hends.reads
  obtain ⟨tok₁, hne, rfl, hplaced'⟩ := hplaced.reads hclose
  obtain ⟨run, rfl, hname'⟩ := name?_local hname hne
  rw [← List.append_assoc] at hspaces
  obtain ⟨gap, rfl, hspaces'⟩ := spaces?_local hspaces (by simp [hne])
  refine ⟨gap ++ (run ++ tok₁), by simp, fun rest' => ?_⟩
  have hgap : spaces? (gap ++ (run ++ tok₁) ++ rest') = some (run ++ (tok₁ ++ rest')) := by simpa using hspaces' rest'
  exact doctype?_eq_some.2 ⟨_, name, _, _, hgap, hname' rest', hplaced' rest', hends' rest'⟩

end Local

/-- Neither spaces nor a comment nor an instruction stand in front. -/
structure Settled (cs : List Char) : Prop where
  stops : Stops isSpace cs
  unmarked : ("<!--".toList.isPrefixOf cs || "<?".toList.isPrefixOf cs) = false

def Opens (cs : List Char) : Prop :=
  ∃ c r, isNameChar c = true ∧ cs = '<' :: c :: r

theorem Opens.settled {cs : List Char} (h : Opens cs) : Settled cs := by
  obtain ⟨c, r, hc, rfl⟩ := h
  have hbang : c ≠ '!' := ne_of_class hc (by decide)
  have hquery : c ≠ '?' := ne_of_class hc (by decide)
  exact ⟨stops_cons (by decide), by simp [List.isPrefixOf, hbang.symm, hquery.symm]⟩

section Front

variable {cs rest : List Char}

theorem misc?_of_marked {t : Token}
    (hmark : ("<!--".toList.isPrefixOf (skipSpaces cs) || "<?".toList.isPrefixOf (skipSpaces cs)) = true)
    (h : Token.next? (skipSpaces cs) = some (t, rest)) : misc? cs = misc? rest := by
  rw [misc?, if_pos hmark]
  split
  · rename_i hfault
    cases h.symm.trans hfault
  · rename_i hnext
    cases h.symm.trans hnext
    rfl

theorem misc?_of_settled {blank : List Char} (hblank : ∀ c ∈ blank, isSpace c = true) (h : Settled cs) :
    misc? (blank ++ cs) = some cs := by
  have hskip := skipSpaces_append hblank h.stops
  have hunmarked := h.unmarked
  rw [← hskip] at hunmarked
  rw [misc?, if_neg (Bool.eq_false_iff.1 hunmarked), hskip]

theorem misc?_reads (h : misc? cs = some rest) :
    Settled rest ∧ ∃ tok, cs = tok ++ rest ∧ ∀ rest', Settled rest' → misc? (tok ++ rest') = some rest' := by
  fun_induction misc? cs with
  | case1 => cases h
  | case2 cs hmark t r hnext _ ih =>
      obtain ⟨hsettled, tok, rfl, hreads⟩ := ih h
      obtain ⟨tok', hclose, hskip, hnext'⟩ := next?_marked hmark hnext
      obtain ⟨blank, -, rfl, hskip'⟩ := skipSpaces_local hskip (List.ne_nil_of_mem hclose)
      refine ⟨hsettled, blank ++ (tok' ++ tok), by simp, fun rest' hrest' => ?_⟩
      have hmark' : ("<!--".toList.isPrefixOf (skipSpaces (blank ++ (tok' ++ (tok ++ rest')))) ||
          "<?".toList.isPrefixOf (skipSpaces (blank ++ (tok' ++ (tok ++ rest'))))) = true := by
        rw [hskip', isPrefixOf_closed hclose (by decide) _ (tok ++ rest),
          isPrefixOf_closed hclose (by decide) (tok ++ rest') (tok ++ rest), ← hskip, hmark]
      have hmisc := misc?_of_marked hmark' (by rw [hskip']; exact hnext' _)
      rw [List.append_assoc, List.append_assoc, hmisc, hreads rest' hrest']
  | case3 cs hmark =>
      cases h
      obtain ⟨blank, hblank, hcs⟩ := exists_skipSpaces cs
      exact ⟨⟨stops_dropWhile isSpace cs, Bool.eq_false_iff.2 hmark⟩, blank, hcs, fun rest' => misc?_of_settled hblank⟩

theorem prolog?_reads {allow : Bool} {es : List Entity} (h : prolog? allow cs = some (es, rest)) :
    ∃ tok, cs = tok ++ rest ∧ ∀ rest', Opens rest' → prolog? allow (tok ++ rest') = some (es, rest') := by
  simp only [prolog?, Option.bind_eq_bind, Option.bind_eq_some_iff] at h
  obtain ⟨body, hmisc, h⟩ := h
  obtain ⟨-, tok, rfl, hmisc'⟩ := misc?_reads hmisc
  split at h
  · cases h
    refine ⟨tok, rfl, fun rest' hrest' => ?_⟩
    have hdoctype : after? "<!DOCTYPE".toList rest' = none := by
      obtain ⟨c, r, hc, rfl⟩ := hrest'
      have hbang : c ≠ '!' := ne_of_class hc (by decide)
      simp [after?_eq_none, List.isPrefixOf, hbang.symm]
    rw [prolog?, hmisc' rest' hrest'.settled]
    simp only [Option.bind_eq_bind, Option.bind_some, hdoctype]
  · rename_i inner hdoctype
    split at h
    · rename_i hallow
      simp only [Option.bind_eq_some_iff, Prod.exists, Option.some.injEq, Prod.mk.injEq] at h
      obtain ⟨_, after, htype, _, hmisc₂, rfl, rfl⟩ := h
      obtain ⟨-, tok₂, rfl, hmisc₂'⟩ := misc?_reads hmisc₂
      obtain ⟨tok₁, rfl, htype'⟩ := doctype?_reads htype
      obtain rfl := after?_eq_some.1 hdoctype
      refine ⟨tok ++ ("<!DOCTYPE".toList ++ (tok₁ ++ tok₂)), by simp, fun rest' hrest' => ?_⟩
      have hsettled : Settled ("<!DOCTYPE".toList ++ (tok₁ ++ (tok₂ ++ rest'))) := ⟨stops_cons (by decide), rfl⟩
      simp only [List.append_assoc, prolog?, hmisc' _ hsettled, Option.bind_eq_bind, Option.bind_some, after?_append,
        if_pos hallow, htype', hmisc₂' rest' hrest'.settled]
    · cases h

theorem declared?_local {name : String} {pre r : List Char} (hname : '>' ∉ name.toList)
    (h : declared? name cs = some (pre ++ "?>".toList ++ r)) :
    ∃ tok, cs = tok ++ "?>".toList ++ r ∧
      ∀ r', declared? name (tok ++ "?>".toList ++ r') = some (pre ++ "?>".toList ++ r') := by
  have hkeyword (tok r' : List Char) :
      name.toList.isPrefixOf (tok ++ "?>".toList ++ r') = name.toList.isPrefixOf (tok ++ "?>".toList ++ r) :=
    isPrefixOf_closed (by simp) hname _ _
  have hhead (tok r' : List Char) : (tok ++ "?>".toList ++ r').head? = (tok ++ "?>".toList ++ r).head? := by
    cases tok <;> rfl
  unfold declared? at h
  split at h
  · rename_i hstart
    simp only [Option.bind_eq_bind, Option.bind_eq_some_iff, Prod.exists] at h
    obtain ⟨a, rest, hattribute, h⟩ := h
    obtain ⟨c, tok, -, rfl, hattribute'⟩ := attribute?_reads hattribute
    split at h
    · rename_i hspace
      obtain ⟨blank, -, rfl, hskip⟩ := skipSpaces_local (Option.some.inj h) (by simp)
      have htext (r' : List Char) : blank ++ (pre ++ "?>".toList ++ r') = blank ++ pre ++ "?>".toList ++ r' := by simp
      refine ⟨c :: tok ++ (blank ++ pre), by simp, fun r' => ?_⟩
      rw [htext] at hspace
      rw [htext, ← List.append_assoc, ← List.append_assoc] at hstart
      rw [declared?, hkeyword, if_pos hstart, List.append_assoc (c :: tok), List.append_assoc (c :: tok), hattribute']
      simp only [Option.bind_eq_bind, Option.bind_some]
      rw [hhead, if_pos hspace, ← htext, hskip]
    · rename_i hspace
      split at h
      · rename_i hmark
        cases h
        refine ⟨c :: tok ++ pre, by simp, fun r' => ?_⟩
        rw [← List.append_assoc, ← List.append_assoc] at hstart
        have hmark' : "?>".toList.isPrefixOf (pre ++ "?>".toList ++ r') =
            "?>".toList.isPrefixOf (pre ++ "?>".toList ++ r) := isPrefixOf_append (.inl (by simp)) _ _
        rw [declared?, hkeyword, if_pos hstart, List.append_assoc (c :: tok), List.append_assoc (c :: tok), hattribute']
        simp only [Option.bind_eq_bind, Option.bind_some]
        have hempty (r' : List Char) : (pre ++ "?>".toList ++ r').isEmpty = false := by simp
        rw [hempty, Bool.false_or] at hmark
        rw [hhead, if_neg hspace, hempty, Bool.false_or, hmark', if_pos hmark]
      · cases h
  · rename_i hstart
    cases h
    refine ⟨pre, rfl, fun r' => ?_⟩
    rw [declared?, hkeyword, if_neg hstart]

/-- A declaration cannot begin in front of a tag and reach into it. -/
theorem after?_declaration_eq_none {tok : List Char} (h : after? "<?xml ".toList (tok ++ rest) = none)
    (hrest : Opens rest) {rest' : List Char} (hrest' : Opens rest') : after? "<?xml ".toList (tok ++ rest') = none := by
  obtain ⟨c, r, -, rfl⟩ := hrest
  obtain ⟨c', r', hc', rfl⟩ := hrest'
  rw [after?_eq_none] at h ⊢
  cases tok with
  | nil =>
      have hquery : c' ≠ '?' := ne_of_class hc' (by decide)
      simp [List.isPrefixOf, hquery.symm]
  | cons d tok =>
      have htail : "?xml ".toList.isPrefixOf (tok ++ ['<'] ++ c' :: r') =
          "?xml ".toList.isPrefixOf (tok ++ ['<'] ++ c :: r) := isPrefixOf_append (.inr ⟨'<', by simp, by decide⟩) _ _
      rw [List.append_assoc, List.append_assoc] at htail
      rw [← h]
      exact congrArg (('<' == d) && ·) htail

theorem declaration_reads {mid : List Char} (h : declaration cs = some (mid ++ rest)) (hrest : Opens rest) :
    ∃ tok, cs = tok ++ rest ∧ ∀ rest', Opens rest' → declaration (tok ++ rest') = some (mid ++ rest') := by
  unfold declaration at h
  split at h
  · rename_i hnone
    cases h
    refine ⟨mid, rfl, fun rest' hrest' => ?_⟩
    rw [declaration, after?_declaration_eq_none hnone hrest hrest']
  · rename_i body hsome
    simp only at h
    split at h
    · rename_i hversion
      simp only [Option.bind_eq_bind, Option.bind_eq_some_iff] at h
      obtain ⟨a, ha, b, hb, c, hc, hend⟩ := h
      rw [after?_eq_some] at hend
      obtain ⟨blank, -, rfl, hskip⟩ := skipSpaces_local hend (by simp)
      rw [← List.append_assoc] at hc
      obtain ⟨tok₃, rfl, hc'⟩ := declared?_local (by decide) hc
      obtain ⟨tok₂, rfl, hb'⟩ := declared?_local (by decide) hb
      obtain ⟨tok₁, hbody, ha'⟩ := declared?_local (by decide) ha
      obtain ⟨gap, -, rfl, hgap⟩ := skipSpaces_local hbody (by simp)
      obtain rfl := after?_eq_some.1 hsome
      refine ⟨"<?xml ".toList ++ (gap ++ (tok₁ ++ "?>".toList ++ mid)), by simp, fun rest' _ => ?_⟩
      have htext : "<?xml ".toList ++ (gap ++ (tok₁ ++ "?>".toList ++ mid)) ++ rest' =
          "<?xml ".toList ++ (gap ++ (tok₁ ++ "?>".toList ++ (mid ++ rest'))) := by simp
      have hversion' : "version".toList.isPrefixOf (tok₁ ++ "?>".toList ++ (mid ++ rest')) = true := by
        rw [isPrefixOf_closed (by simp) (by decide) _ (mid ++ rest), ← hbody, hversion]
      rw [htext, declaration, after?_append]
      simp only [hgap, if_pos hversion', ha', hb', hc', Option.bind_eq_bind, Option.bind_some]
      rw [List.append_assoc, hskip, after?_append]
    · cases h

theorem skipMark_reads {mid : List Char} (h : skipMark cs = mid ++ rest) :
    ∃ tok, cs = tok ++ rest ∧ ∀ rest', Opens rest' → skipMark (tok ++ rest') = mid ++ rest' := by
  unfold skipMark at h
  split at h
  · subst h
    exact ⟨'\uFEFF' :: mid, rfl, fun _ _ => rfl⟩
  · rename_i hmark
    subst h
    refine ⟨mid, rfl, fun rest' hrest' => ?_⟩
    rw [skipMark]
    intro tail heq
    cases mid with
    | nil =>
        obtain ⟨c, r, -, rfl⟩ := hrest'
        simp at heq
    | cons d mid =>
        cases heq
        exact hmark _ rfl

/-- The root can be replaced, and so can all of its content. -/
theorem opening?_reads {allow : Bool} {text : String} {es : List Entity} (h : opening? allow text = some (es, cs))
    (hcs : Opens cs) :
    ∃ front, text = String.ofList (front ++ cs) ∧
      ∀ cs', Opens cs' → opening? allow (String.ofList (front ++ cs')) = some (es, cs') := by
  simp only [opening?, Option.bind_eq_bind, Option.bind_eq_some_iff] at h
  obtain ⟨body, hdeclaration, hprolog⟩ := h
  obtain ⟨tok₃, rfl, hprolog'⟩ := prolog?_reads hprolog
  obtain ⟨tok₂, hmark, hdeclaration'⟩ := declaration_reads hdeclaration hcs
  obtain ⟨front, htext, hmark'⟩ := skipMark_reads hmark
  refine ⟨front, by rw [← htext, String.ofList_toList], fun cs' hcs' => ?_⟩
  rw [opening?, String.toList_ofList, hmark' cs' hcs', hdeclaration' cs' hcs']
  exact hprolog' cs' hcs'

end Front

end Bisection.Xml
