import Mathlib
import Bisection.Proofs.CommentTrees
import Bisection.Proofs.Prolog

namespace Bisection.Xml

section Texts

variable {entities : List Entity} {inner : ContentReader}

theorem textPieces_append (run : Run) (ps : List Piece) {qs : List Piece} (hqs : qs ≠ []) :
    .fault ∈ (textPieces entities true inner run (ps ++ qs) 0).1 ∨ ∃ (es : List Event) (r r' : Run),
      (textPieces entities true inner run (ps ++ qs) 0).1 = es ++ (textPieces entities true inner r qs 0).1 ∧
        (textPieces entities true inner run ps 0).1 = es ++ r'.events := by
  induction ps generalizing run with
  | nil => exact .inr ⟨[], run, run, rfl, rfl⟩
  | cons piece ps ih =>
      cases piece with
      | literal c =>
          cases ps with
          | nil =>
              refine .inr ⟨[], if run.verbatim then run.pushVerbatim c false else run.push c false,
                if run.verbatim then run.pushVerbatim c false else run.push c true, ?_, rfl⟩
              have hlast : qs.isEmpty = false := by simpa using hqs
              simp only [List.cons_append, List.nil_append, textPieces, hlast]
          | cons piece' ps => exact ih _
      | character c => exact ih _
      | entity name =>
          simp only [List.cons_append, textPieces]
          cases entityAt? entities true name 0 with
          | none => exact .inl List.mem_cons_self
          | some x =>
              obtain ⟨value, count⟩ := x
              have hcount (ps : List Piece) : (textPieces entities true inner {} ps (inner value count).2).1 =
                  (textPieces entities true inner {} ps 0).1 := textPieces_outermost inner {} ps _
              simp only [hcount]
              rcases ih {} with hfault | ⟨es, r, r', hjoined, hcut⟩
              · exact .inl (List.mem_append_right _ hfault)
              · refine .inr ⟨run.events ++ (inner value count).1 ++ es, r, r', ?_, ?_⟩
                · simp only [hjoined, List.append_assoc]
                · simp only [hcut, List.append_assoc]
      | broken => exact .inl List.mem_cons_self

theorem textPieces_restart (run run' : Run) (ps : List Piece) :
    .fault ∈ (textPieces entities true inner run ps 0).1 ∨ ∃ (r r' : Run) (es : List Event),
      (textPieces entities true inner run ps 0).1 = r.events ++ es ∧
        (textPieces entities true inner run' ps 0).1 = r'.events ++ es := by
  induction ps generalizing run run' with
  | nil => exact .inr ⟨run, run', [], (List.append_nil _).symm, (List.append_nil _).symm⟩
  | cons piece ps ih =>
      cases piece with
      | literal c => exact ih _ _
      | character c => exact ih _ _
      | entity name =>
          simp only [textPieces]
          cases entityAt? entities true name 0 with
          | none => exact .inl List.mem_cons_self
          | some x => exact .inr ⟨run, run', _, List.append_assoc _ _ _, List.append_assoc _ _ _⟩
      | broken => exact .inl List.mem_cons_self

end Texts

namespace Progress

variable {p p' : Progress} {entities : List Entity}

theorem fault_not_mem {es : List Event} (h : es.foldlM step p = .ok p') : .fault ∉ es := by
  induction es generalizing p with
  | nil => exact List.not_mem_nil
  | cons e es ih =>
      obtain ⟨p₁, hp₁, h⟩ := foldlM_cons_eq_ok.1 h
      rw [List.mem_cons, not_or]
      refine ⟨?_, ih h⟩
      rintro rfl
      cases hp₁

theorem foldlM_run (r : Run) (p : Progress) :
    r.events.foldlM step p = .ok p ∨ ∃ s, r.events.foldlM step p = .ok (p.addText s) := by
  unfold Run.events
  split
  · exact .inl rfl
  · exact .inr ⟨_, rfl⟩

theorem take_text_cut {u v : List Char} (hv : v ≠ []) (hpieces : pieces (u ++ v) = pieces u ++ pieces v)
    (h : p.take entities (.text (u ++ v)) = .ok p') (c : String) :
    ∃ q q', p.take entities (.text u) = .ok q ∧ (q.add (.comment c)).take entities (.text v) = .ok q' ∧
      Apart q.leadingText q.Fixed q.names p' q' := by
  rw [take, Token.events, textEvents, hpieces] at h
  -- between the last entity before the cut and the first one behind it, one text stands where two are with the comment
  have hfault := fault_not_mem h
  obtain hbroken | ⟨es, r, r', hjoined, hcut⟩ := textPieces_append {} (pieces u) (mt pieces_eq_nil.1 hv)
  · exact absurd hbroken hfault
  rw [hjoined] at h hfault
  obtain hbroken | ⟨a, b, more, hleft, hright⟩ := textPieces_restart r {} (pieces v)
  · exact absurd (List.mem_append_right es hbroken) hfault
  rw [hleft] at h
  obtain ⟨p₀, hp₀, h⟩ := foldlM_append_eq_ok.1 h
  obtain ⟨p₁, hp₁, h⟩ := foldlM_append_eq_ok.1 h
  obtain ⟨q, hq, hajar⟩ : ∃ q, r'.events.foldlM step p₀ = .ok q ∧
      Ajar q.leadingText q.Fixed q.names p₀ (q.add (.comment c)) := by
    obtain hrun | ⟨s, hrun⟩ := foldlM_run r' p₀
    · exact ⟨_, hrun, ajar_comment p₀ c⟩
    · exact ⟨_, hrun, ajar_addText_left.1 (ajar_comment _ c)⟩
  have hajar₁ : Ajar q.leadingText q.Fixed q.names p₁ (q.add (.comment c)) := by
    obtain hrun | ⟨s, hrun⟩ := foldlM_run a p₀
    · cases hp₁.symm.trans hrun
      exact hajar
    · cases hp₁.symm.trans hrun
      exact ajar_addText_left.2 hajar
  obtain ⟨q₁, hq₁, hajar₂⟩ : ∃ q₁, b.events.foldlM step (q.add (.comment c)) = .ok q₁ ∧
      Ajar q.leadingText q.Fixed q.names p₁ q₁ := by
    obtain hrun | ⟨s, hrun⟩ := foldlM_run b (q.add (.comment c))
    · exact ⟨_, hrun, hajar₁⟩
    · exact ⟨_, hrun, hajar₁.addText_right s⟩
  obtain ⟨q', hq', hapart⟩ := hajar₂.apart.foldlM_step h
  refine ⟨q, q', ?_, ?_, hapart⟩
  · rw [take, Token.events, textEvents, hcut]
    exact foldlM_append_eq_ok.2 ⟨p₀, hp₀, hq⟩
  · rw [take, Token.events, textEvents, hright]
    exact foldlM_append_eq_ok.2 ⟨q₁, hq₁, hq'⟩

theorem Apart.take {new : String} {fixed : Prop} {names : List String} {q : Progress} (h : Apart new fixed names p q)
    {ts : List Token} (hp : ts.foldlM (take entities) p = .ok p') :
    ∃ q', ts.foldlM (Progress.take entities) q = .ok q' ∧ Apart new fixed names p' q' := by
  rw [← foldlM_events] at hp
  obtain ⟨q', hq', h'⟩ := h.foldlM_step hp
  exact ⟨q', by rwa [← foldlM_events], h'⟩

end Progress

/-- The tokens of a document without a comment and with it. The first ones stand in front of the comment. -/
inductive Inserted (c : Token) : List Token → List Token → List Token → Prop
  | edge (us : List Token) : Inserted c [] us (c :: us)
  | text {u v : List Char} (hv : v ≠ []) (hpieces : pieces (u ++ v) = pieces u ++ pieces v) (us : List Token) :
      Inserted c [.text u] (.text (u ++ v) :: us) (.text u :: c :: .text v :: us)
  | next (t : Token) {ts us us' : List Token} (h : Inserted c ts us us') : Inserted c (t :: ts) (t :: us) (t :: us')

theorem Inserted.run {entities : List Entity} {raw : List Char} {ts us us' : List Token} {p p' : Progress}
    (h : Inserted (.comment raw) ts us us') (hp : us.foldlM (Progress.take entities) p = .ok p') :
    ∃ q q', ts.foldlM (Progress.take entities) p = .ok q ∧ us'.foldlM (Progress.take entities) p = .ok q' ∧
      Progress.Apart q.leadingText q.Fixed q.names p' q' := by
  induction h generalizing p with
  | edge us =>
      obtain ⟨q', hq', h⟩ := (Progress.ajar_comment p (String.ofList raw)).apart.take hp
      exact ⟨p, q', rfl, hq', h⟩
  | text hv hpieces us =>
      obtain ⟨p₁, hp₁, hp⟩ := foldlM_cons_eq_ok.1 hp
      obtain ⟨q, q₁, hq, hq₁, h⟩ := Progress.take_text_cut hv hpieces hp₁ (String.ofList raw)
      obtain ⟨q', hq', h'⟩ := h.take hp
      have hrest := foldlM_cons_eq_ok.2 ⟨q₁, hq₁, hq'⟩
      have hcomment := foldlM_cons_eq_ok.2 ⟨_, Progress.take_comment raw, hrest⟩
      exact ⟨q, q', foldlM_cons_eq_ok.2 ⟨q, hq, rfl⟩, foldlM_cons_eq_ok.2 ⟨q, hq, hcomment⟩, h'⟩
  | next t h ih =>
      obtain ⟨p₁, hp₁, hp⟩ := foldlM_cons_eq_ok.1 hp
      obtain ⟨q, q', hq, hq', hapart⟩ := ih hp
      exact ⟨q, q', foldlM_cons_eq_ok.2 ⟨p₁, hp₁, hq⟩, foldlM_cons_eq_ok.2 ⟨p₁, hp₁, hq'⟩, hapart⟩

def mayComment (raw : List Char) : Bool := raw.all isChar && !hasInfix ['-', '-'] raw && raw.getLast? != some '-'

def commentText (raw : List Char) : List Char := "<!--".toList ++ (raw ++ "-->".toList)

section Tokens

variable {raw rest : List Char}

theorem breakAt?_comment (hpair : ¬['-', '-'] <:+: raw) (hlast : raw.getLast? ≠ some '-') :
    breakAt? ['-', '-', '>'] (raw ++ (['-', '-', '>'] ++ rest)) = some (raw, rest) := by
  induction raw with
  | nil => rfl
  | cons c raw ih =>
      have hnone : after? ['-', '-', '>'] (c :: (raw ++ (['-', '-', '>'] ++ rest))) = none := by
        rw [after?_eq_none, ← Bool.not_eq_true, List.isPrefixOf_iff_prefix]
        intro hmark
        obtain ⟨rfl, htail⟩ := List.cons_prefix_cons.1 hmark
        cases raw with
        | nil => exact hlast rfl
        | cons d raw =>
            obtain ⟨rfl, -⟩ := List.cons_prefix_cons.1 htail
            exact hpair ⟨[], raw, rfl⟩
      have hlast' : raw.getLast? ≠ some '-' := by
        cases raw with
        | nil => simp
        | cons d raw => simpa using hlast
      rw [List.cons_append, breakAt?, hnone, ih (fun hpart => hpair (List.infix_cons hpart)) hlast']
      rfl

theorem next?_comment (h : mayComment raw = true) (rest : List Char) :
    Token.next? (commentText raw ++ rest) = some (.comment raw, rest) := by
  have hlegal := h
  simp only [mayComment, Bool.and_eq_true, Bool.not_eq_true', bne_iff_ne] at hlegal
  obtain ⟨⟨-, hpair⟩, hlast⟩ := hlegal
  rw [← Bool.not_eq_true, hasInfix_iff (by simp)] at hpair
  have hbreak : breakAt? ['-', '-', '>'] (raw ++ (['-', '-', '>'] ++ rest)) = some (raw, rest) :=
    breakAt?_comment hpair hlast
  obtain ⟨tok, hspelled, -, -, htakes⟩ := Token.takes_comment hbreak h
  cases hspelled
  exact htakes rest trivial

theorem next?_chars (hne : raw ≠ []) (htag : '<' ∉ raw) (hchars : raw.all isChar = true)
    (hend : hasInfix [']', ']', '>'] raw = false) (hrest : Stops (· != '<') rest) :
    Token.next? (raw ++ rest) = some (.text raw, rest) := by
  obtain ⟨c, run, rfl⟩ := List.exists_cons_of_ne_nil hne
  obtain ⟨hc, hrun⟩ := not_or.1 (mt List.mem_cons.2 htag)
  have htake : run.takeWhile (· != '<') = run := by
    rw [List.takeWhile_eq_self_iff]
    intro d hd
    rw [bne_iff_ne]
    rintro rfl
    exact hrun hd
  have htakes : Token.Takes (.text (c :: run.takeWhile (· != '<'))) (c :: run) (run.dropWhile (· != '<')) := by
    refine Token.takes_text (Ne.symm hc) ?_
    rw [htake, hchars, hend]
    rfl
  rw [htake] at htakes
  obtain ⟨tok, hspelled, -, -, htakes⟩ := htakes
  cases hspelled
  exact htakes rest hrest

theorem tokens_of_open {t : Token} {level : ℕ} {cs : List Char} (h : Token.next? cs = some (t, rest))
    (hlevel : t.level level ≠ 0) :
    tokens level cs = (t :: (tokens (t.level level) rest).1, (tokens (t.level level) rest).2) := by
  rw [tokens_of_next? h, if_neg hlevel]

end Tokens

/-- A place in the content between the characters before and after it, and the tokens of those before it. Elements are
open there, so many at the beginning as the level says. -/
inductive Place : ℕ → List Token → List Char → List Char → Prop
  | edge {level : ℕ} (hlevel : level ≠ 0) (after : List Char) : Place level [] [] after
  | text {level : ℕ} {u v rest : List Char} (hlevel : level ≠ 0) (hu : u ≠ []) (hv : v ≠ [])
      (hpieces : pieces (u ++ v) = pieces u ++ pieces v)
      (hnext : Token.next? (u ++ (v ++ rest)) = some (.text (u ++ v), rest)) : Place level [.text u] u (v ++ rest)
  | next {level : ℕ} {t : Token} {ts : List Token} {tok before after : List Char}
      (hnext : Token.next? (tok ++ (before ++ after)) = some (t, before ++ after))
      (hended : ∀ name as, t ≠ .start name as .missing) (hlevel : t.level level ≠ 0)
      (h : Place (t.level level) ts before after) : Place level (t :: ts) (tok ++ before) after

namespace Place

variable {level : ℕ} {ts : List Token} {raw before after : List Char}

theorem follows_insert {t : Token} (h : t.Follows (before ++ after)) (hended : ∀ name as, t ≠ .start name as .missing)
    (raw : List Char) : t.Follows (before ++ (commentText raw ++ after)) := by
  cases t with
  | text u =>
      cases before with
      | nil => exact stops_cons (by decide)
      | cons c before => exact Stops.congr (c :: before) after _ (List.cons_ne_nil _ _) h
  | start name as ending =>
      cases ending with
      | missing => exact absurd rfl (hended name as)
      | opened => trivial
      | closed => trivial
  | stop | cdata | comment | instruction | broken => trivial

theorem exists_inserted (h : Place level ts before after) (hraw : mayComment raw = true) :
    ∃ us us' rest, tokens level (before ++ after) = (us, rest) ∧
      tokens level (before ++ (commentText raw ++ after)) = (us', rest) ∧ Inserted (.comment raw) ts us us' := by
  induction h with
  | edge hlevel after => exact ⟨_, _, _, rfl, tokens_of_open (next?_comment hraw after) hlevel, .edge _⟩
  | @text level u v rest hlevel hu hv hpieces hnext =>
      refine ⟨_, _, (tokens level rest).2, tokens_of_open hnext hlevel, ?_, .text hv hpieces _⟩
      obtain ⟨tok, hspelled, -, hfollows, -⟩ := Token.takes_of_next? hnext
      cases hspelled with
      | text hne htag hchars hend =>
          rw [List.mem_append, not_or] at htag
          rw [List.all_append, Bool.and_eq_true] at hchars
          rw [← Bool.not_eq_true, hasInfix_iff (by simp)] at hend
          have hpart {w : List Char} (hw : w <:+: u ++ v) : hasInfix [']', ']', '>'] w = false := by
            rw [← Bool.not_eq_true, hasInfix_iff (by simp)]
            exact fun hmark => hend (hmark.trans hw)
          have hright : Token.next? (v ++ rest) = some (.text v, rest) :=
            next?_chars hv htag.2 hchars.2 (hpart (List.suffix_append u v).isInfix) hfollows
          have hleft : Token.next? (u ++ (commentText raw ++ (v ++ rest))) =
              some (.text u, commentText raw ++ (v ++ rest)) :=
            next?_chars hu htag.1 hchars.1 (hpart (List.prefix_append u v).isInfix) (stops_cons (by decide))
          have htail : tokens level (v ++ rest) = (.text v :: (tokens level rest).1, (tokens level rest).2) :=
            tokens_of_open hright hlevel
          have hcomment : tokens level (commentText raw ++ (v ++ rest)) =
              (.comment raw :: (tokens level (v ++ rest)).1, (tokens level (v ++ rest)).2) :=
            tokens_of_open (next?_comment hraw _) hlevel
          have hall : tokens level (u ++ (commentText raw ++ (v ++ rest))) =
              (.text u :: (tokens level (commentText raw ++ (v ++ rest))).1,
                (tokens level (commentText raw ++ (v ++ rest))).2) := tokens_of_open hleft hlevel
          rw [hall, hcomment, htail]
          rfl
  | @next level t ts tok before after hnext hended hlevel h ih =>
      obtain ⟨us, us', rest, hus, hus', hinserted⟩ := ih
      obtain ⟨tok', -, heq, hfollows, htakes⟩ := Token.takes_of_next? hnext
      obtain rfl := List.append_cancel_right heq
      have hnext' := htakes _ (follows_insert hfollows hended raw)
      refine ⟨t :: us, t :: us', rest, ?_, ?_, .next t hinserted⟩
      · rw [List.append_assoc, tokens_of_open hnext hlevel, hus]
      · rw [List.append_assoc, tokens_of_open hnext' hlevel, hus']

theorem opens (h : Place 0 ts before after) :
    ∃ name as us, ts = .start name as .opened :: us ∧ ∀ rest, Opens (before ++ rest) := by
  cases h with
  | edge hlevel => exact absurd rfl hlevel
  | text hlevel => exact absurd rfl hlevel
  | @next _ t ts tok before after hnext hended hlevel h =>
      obtain ⟨tok', hspelled, heq, -, -⟩ := Token.takes_of_next? hnext
      obtain rfl := List.append_cancel_right heq
      cases hspelled with
      | @start name as ending c hc body =>
          cases ending with
          | opened => exact ⟨name, as, ts, rfl, fun rest => ⟨c, _, hc, rfl⟩⟩
          | closed => exact absurd rfl hlevel
          | missing => exact absurd rfl hlevel
      | stop | text | cdata | comment | instruction => exact absurd rfl hlevel

end Place

/-- A comment for a place in the content of a document. -/
structure Remark (allowDoctype : Bool) where
  front : List Char
  before : List Char
  after : List Char
  entities : List Entity
  tokens : List Token
  raw : List Char
  opening : opening? allowDoctype (String.ofList (front ++ (before ++ after))) = some (entities, before ++ after)
  place : Place 0 tokens before after
  legal : mayComment raw = true

namespace Remark

variable {allowDoctype : Bool}

def plain (r : Remark allowDoctype) : String := String.ofList (r.front ++ (r.before ++ r.after))

def text (r : Remark allowDoctype) : String :=
  String.ofList (r.front ++ (r.before ++ (commentText r.raw ++ r.after)))

/-- What a comment does to the tree of a document: the innermost element that is open at its place, in the state that
the tokens before it lead to, begins with the text so far and no longer with `old`. That makes no difference if
something besides text comes first. -/
structure Effect (r : Remark allowDoctype) (root root' : Element) (p : Progress) (old : String) : Prop where
  parses : parse allowDoctype r.text = .ok root'
  reached : r.tokens.foldlM (Progress.take r.entities) {} = .ok p
  trees : root' = root ∧ old = p.leadingText ∨ Recut old p.leadingText p.names root root'
  complete : p.Fixed → old = p.leadingText

theorem exists_effect (r : Remark allowDoctype) {root : Element} (h : parse allowDoctype r.plain = .ok root) :
    ∃ root' p old, r.Effect root root' p old := by
  obtain ⟨entities, cs, name, as, ending, ts, rest, p', hopening, htokens, hrun, hrest, hroot⟩ := parse_eq_ok.1 h
  cases r.opening.symm.trans hopening
  obtain ⟨_, _, us, hus, hopens⟩ := r.place.opens
  obtain ⟨front, hfront, hreads⟩ := opening?_reads r.opening (hopens r.after)
  obtain rfl := List.append_cancel_right (String.ofList_injective hfront)
  obtain ⟨all, all', rest', hall, hall', hinserted⟩ := r.place.exists_inserted r.legal
  cases htokens.symm.trans hall
  obtain ⟨p, q', hp, hq', hapart⟩ := hinserted.run hrun
  obtain ⟨root', hroot', hroots⟩ := hapart.finish hroot
  have hparse : parse allowDoctype r.text = .ok root' := by
    rw [hus] at hinserted
    cases hinserted with
    | next t hinserted =>
        exact parse_eq_ok.2 ⟨_, _, _, _, _, _, _, q', hreads _ (hopens _), hall', hq', hrest, hroot'⟩
  cases hroots with
  | same => exact ⟨root, p, p.leadingText, hparse, hp, .inl ⟨rfl, rfl⟩, fun _ => rfl⟩
  | @recut old _ _ hrecut hold => exact ⟨root', p, old, hparse, hp, .inr hrecut, hold⟩

end Remark

end Bisection.Xml
