import Bisection.Xml.Token

namespace Bisection.Xml

structure Entity where
  name : String
  value : List Char
  deriving DecidableEq, Repr

def literal? : List Char → Option (List Char × List Char)
  | c :: cs => if c == '"' || c == '\'' then breakAt? [c] cs else none
  | [] => none

def externalId? (cs : List Char) : Option (List Char) :=
  match after? "SYSTEM".toList cs with
  | some cs => do
    let (_, rest) ← literal? (← spaces? cs)
    return rest
  | none => do
    let cs ← after? "PUBLIC".toList cs
    let (_, cs) ← literal? (← spaces? cs)
    let (_, rest) ← literal? (← spaces? cs)
    return rest

def notationName? (cs : List Char) : Option (List Char) :=
  match after? "NDATA".toList (skipSpaces cs) with
  | some cs => do
    let (_, rest) ← name? (← spaces? cs)
    return rest
  | none => some cs

def percent? (cs : List Char) : Option (Bool × List Char) :=
  match cs with
  | '%' :: cs => (spaces? cs).map fun rest => (true, rest)
  | _ => some (false, cs)

def definition? (parameter : Bool) (cs : List Char) : Option (Option (List Char) × List Char) :=
  match literal? cs with
  | some (value, rest) => some (some value, rest)
  | none =>
    match externalId? cs with
    | some cs => if parameter then some (none, cs) else (notationName? cs).map fun rest => (none, rest)
    | none => none

def entity? (cs : List Char) : Option (Option Entity × List Char) := do
  let (parameter, cs) ← percent? (← spaces? cs)
  let (name, cs) ← name? cs
  let (value, cs) ← definition? parameter (← spaces? cs)
  let rest ← after? ['>'] (skipSpaces cs)
  return (value.map fun v => ⟨name, v⟩, rest)

def declaration? (cs : List Char) : Option (Option Entity × List Char) :=
  match after? "<!ENTITY".toList cs with
  | some cs => entity? cs
  | none =>
    if "<!--".toList.isPrefixOf cs || "<?".toList.isPrefixOf cs then (Token.next? cs).map fun (_, rest) => (none, rest)
    else if "<!ELEMENT".toList.isPrefixOf cs || "<!ATTLIST".toList.isPrefixOf cs ||
        "<!NOTATION".toList.isPrefixOf cs then
      (breakAt? ['>'] cs).map fun (_, rest) => (none, rest)
    else none

theorem length_spaces? {cs rest : List Char} (h : spaces? cs = some rest) : rest.length ≤ cs.length := by
  have := length_skipSpaces cs
  grind [spaces?]

theorem length_literal? {cs value rest : List Char} (h : literal? cs = some (value, rest)) :
    rest.length < cs.length := by
  cases cs with
  | nil => simp [literal?] at h
  | cons c cs =>
    simp only [literal?] at h
    split at h
    · have := length_breakAt? h
      grind
    · simp at h

theorem length_externalId? {cs rest : List Char} (h : externalId? cs = some rest) : rest.length < cs.length := by
  unfold externalId? at h
  split at h
  · rename_i r hr
    have := length_after? hr
    simp only [Option.bind_eq_bind, Option.bind_eq_some_iff, Prod.exists, Option.pure_def, Option.some.injEq] at h
    obtain ⟨s, hs, v, w, hv, rfl⟩ := h
    have := length_spaces? hs
    have := length_literal? hv
    omega
  · simp only [Option.bind_eq_bind, Option.bind_eq_some_iff, Prod.exists, Option.pure_def, Option.some.injEq] at h
    obtain ⟨r, hr, s, hs, v, w, hv, s', hs', v', w', hv', rfl⟩ := h
    have := length_after? hr
    have := length_spaces? hs
    have := length_literal? hv
    have := length_spaces? hs'
    have := length_literal? hv'
    omega

theorem length_notationName? {cs rest : List Char} (h : notationName? cs = some rest) : rest.length ≤ cs.length := by
  unfold notationName? at h
  split at h
  · rename_i r hr
    have := length_after? hr
    have := length_skipSpaces cs
    simp only [Option.bind_eq_bind, Option.bind_eq_some_iff, Prod.exists, Option.pure_def, Option.some.injEq] at h
    obtain ⟨s, hs, v, w, hv, rfl⟩ := h
    have := length_spaces? hs
    have := length_name? hv
    omega
  · simp_all

theorem length_percent? {cs rest : List Char} {p : Bool} (h : percent? cs = some (p, rest)) :
    rest.length ≤ cs.length := by
  unfold percent? at h
  split at h
  · simp only [Option.map_eq_some_iff, Prod.mk.injEq] at h
    obtain ⟨r, hr, -, rfl⟩ := h
    have := length_spaces? hr
    grind
  · grind

theorem length_definition? {parameter : Bool} {cs rest : List Char} {v : Option (List Char)}
    (h : definition? parameter cs = some (v, rest)) : rest.length < cs.length := by
  unfold definition? at h
  split at h
  · rename_i hl
    have := length_literal? hl
    grind
  · split at h
    · rename_i r hr
      have := length_externalId? hr
      split at h
      · grind
      · simp only [Option.map_eq_some_iff, Prod.mk.injEq] at h
        obtain ⟨r', hr', -, rfl⟩ := h
        have := length_notationName? hr'
        omega
    · simp at h

theorem length_entity? {cs rest : List Char} {e : Option Entity} (h : entity? cs = some (e, rest)) :
    rest.length < cs.length := by
  simp only [entity?, Option.bind_eq_bind, Option.bind_eq_some_iff, Prod.exists, Option.pure_def,
    Option.some.injEq, Prod.mk.injEq] at h
  obtain ⟨a, ha, p, b, hb, n, c, hc, d, hd, v, f, hf, g, hg, -, rfl⟩ := h
  have := length_spaces? ha
  have := length_percent? hb
  have := length_name? hc
  have := length_spaces? hd
  have := length_definition? hf
  have := length_after? hg
  have := length_skipSpaces f
  grind

theorem length_declaration? {cs rest : List Char} {e : Option Entity} (h : declaration? cs = some (e, rest)) :
    rest.length < cs.length := by
  unfold declaration? at h
  split at h
  · rename_i r hr
    have := length_after? hr
    have := length_entity? h
    omega
  · split at h
    · simp only [Option.map_eq_some_iff, Prod.exists, Prod.mk.injEq] at h
      obtain ⟨t, r, ht, -, rfl⟩ := h
      exact Token.length_next? ht
    · split at h
      · simp only [Option.map_eq_some_iff, Prod.exists, Prod.mk.injEq] at h
        obtain ⟨b, r, hb, -, rfl⟩ := h
        have := length_breakAt? hb
        grind
      · simp at h

def subset? (cs : List Char) : Option (List Entity × List Char) :=
  match after? [']'] (skipSpaces cs) with
  | some cs => (after? ['>'] (skipSpaces cs)).map fun rest => ([], rest)
  | none =>
    match h : declaration? (skipSpaces cs) with
    | none => none
    | some (e, rest) =>
      have : rest.length < cs.length := Nat.lt_of_lt_of_le (length_declaration? h) (length_skipSpaces cs)
      (subset? rest).map fun (es, rest) => (e.toList ++ es, rest)
termination_by cs.length

/-- What follows `<!DOCTYPE`: the declared entities and the rest of the document. -/
def doctype? (cs : List Char) : Option (List Entity × List Char) := do
  let (_, cs) ← name? (← spaces? cs)
  let cs := skipSpaces cs
  let cs ← if "SYSTEM".toList.isPrefixOf cs || "PUBLIC".toList.isPrefixOf cs then externalId? cs else some cs
  match skipSpaces cs with
  | '>' :: rest => some ([], rest)
  | '[' :: cs => subset? cs
  | _ => none

end Bisection.Xml
