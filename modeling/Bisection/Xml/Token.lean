import Bisection.Xml.Character

namespace Bisection.Xml

structure QName where
  space : String
  name : String
  deriving DecidableEq, Repr

structure RawAttribute where
  name : QName
  value : List Char
  deriving DecidableEq, Repr

/-- How a start tag ends: with content to follow, without content, or not at all because the text ends first. -/
inductive TagEnd where
  | opened
  | closed
  | missing
  deriving DecidableEq, Repr

inductive Token where
  | start (name : QName) (attributes : List RawAttribute) (ending : TagEnd)
  | stop (name : QName)
  | text (raw : List Char)
  | cdata (raw : List Char)
  | comment (raw : List Char)
  | instruction (target : String) (raw : List Char)
  | broken
  deriving DecidableEq, Repr

def skipSpaces (cs : List Char) : List Char := cs.dropWhile isSpace

def after? (lit cs : List Char) : Option (List Char) :=
  if lit.isPrefixOf cs then some (cs.drop lit.length) else none

def breakAt? (lit : List Char) : List Char → Option (List Char × List Char)
  | [] => none
  | c :: cs =>
    match after? lit (c :: cs) with
    | some rest => some ([], rest)
    | none => (breakAt? lit cs).map fun (before, rest) => (c :: before, rest)

def hasInfix (lit cs : List Char) : Bool := (breakAt? lit cs).isSome

def spaces? (cs : List Char) : Option (List Char) :=
  if cs.head?.any isSpace then some (skipSpaces cs) else none

def name? : List Char → Option (String × List Char)
  | [] => none
  | c :: cs =>
    if isNameStart c then some (String.ofList (c :: cs.takeWhile isNameChar), cs.dropWhile isNameChar) else none

def qname? (cs : List Char) : Option (QName × List Char) :=
  let run := cs.takeWhile isNameChar
  let rest := cs.dropWhile isNameChar
  let (space, name) := match run.dropWhile (· != ':') with
    | _ :: name => (run.takeWhile (· != ':'), name)
    | [] => ([], run)
  if name.contains ':' || !name.head?.any isNameStart || !space.head?.all isNameStart then none
  else some (⟨String.ofList space, String.ofList name⟩, rest)

def value? (quote : Char) (cs : List Char) : Option (List Char × List Char) :=
  let value := cs.takeWhile fun c => c != quote && c != '<'
  match cs.dropWhile fun c => c != quote && c != '<' with
  | c :: rest => if c == quote && value.all isChar then some (value, rest) else none
  | [] => none

def attribute? (cs : List Char) : Option (RawAttribute × List Char) :=
  match qname? cs with
  | none => none
  | some (name, rest) =>
    match skipSpaces rest with
    | '=' :: rest =>
      match skipSpaces rest with
      | c :: rest =>
        if c == '"' || c == '\'' then (value? c rest).map fun (value, rest) => (⟨name, value⟩, rest) else none
      | [] => none
    | _ => none

theorem length_skipSpaces (cs : List Char) : (skipSpaces cs).length ≤ cs.length :=
  (List.dropWhile_suffix isSpace).length_le

theorem length_after? {lit cs rest : List Char} (h : after? lit cs = some rest) :
    rest.length + lit.length = cs.length := by
  unfold after? at h
  split at h
  · rename_i hp
    have := (List.isPrefixOf_iff_prefix.1 hp).length_le
    simp only [Option.some.injEq] at h
    subst h
    simp only [List.length_drop]
    omega
  · simp at h

theorem length_breakAt? {lit cs before rest : List Char} (h : breakAt? lit cs = some (before, rest)) :
    rest.length + lit.length ≤ cs.length := by
  induction cs generalizing before with
  | nil => simp [breakAt?] at h
  | cons c cs ih =>
    unfold breakAt? at h
    split at h
    · rename_i r hr
      simp only [Option.some.injEq, Prod.mk.injEq] at h
      have := length_after? hr
      grind
    · simp only [Option.map_eq_some_iff, Prod.exists, Prod.mk.injEq] at h
      obtain ⟨b, r, hb, -, rfl⟩ := h
      have := ih hb
      grind

theorem length_name? {cs rest : List Char} {name : String} (h : name? cs = some (name, rest)) :
    rest.length < cs.length := by
  cases cs with
  | nil => simp [name?] at h
  | cons c cs =>
    have := (List.dropWhile_suffix (l := cs) isNameChar).length_le
    grind [name?]

theorem length_qname? {cs rest : List Char} {name : QName} (h : qname? cs = some (name, rest)) :
    rest.length < cs.length := by
  have hsplit : (cs.takeWhile isNameChar).length + (cs.dropWhile isNameChar).length = cs.length := by
    rw [← List.length_append, List.takeWhile_append_dropWhile]
  have hpos : 0 < (cs.takeWhile isNameChar).length := by
    rcases hc : cs.takeWhile isNameChar with _ | ⟨c, run⟩
    · simp [qname?, hc] at h
    · simp
  have hrest : cs.dropWhile isNameChar = rest := by
    unfold qname? at h
    grind
  rw [← hrest]
  omega

theorem length_value? {quote : Char} {cs value rest : List Char} (h : value? quote cs = some (value, rest)) :
    rest.length < cs.length := by
  have := (List.dropWhile_suffix (l := cs) fun c => c != quote && c != '<').length_le
  unfold value? at h
  grind

theorem length_attribute? {cs rest : List Char} {a : RawAttribute} (h : attribute? cs = some (a, rest)) :
    rest.length < cs.length := by
  unfold attribute? at h
  split at h
  · simp at h
  rename_i name r hq
  split at h
  · rename_i r' hr
    split at h
    · rename_i c r'' hr'
      split at h
      · simp only [Option.map_eq_some_iff, Prod.exists, Prod.mk.injEq] at h
        obtain ⟨v, w, hv, -, rfl⟩ := h
        have h1 := length_qname? hq
        have h2 := length_skipSpaces r
        have h3 := length_skipSpaces r'
        have h4 := length_value? hv
        rw [hr] at h2
        rw [hr'] at h3
        simp only [List.length_cons] at h2 h3
        omega
      · simp at h
    · simp at h
  · simp at h

/-- The attributes of a start tag and how it ends. A space must come before each attribute. The text may end right
behind the name or an attribute, but not behind a space. -/
def attributes? (cs : List Char) : Option (List RawAttribute × TagEnd × List Char) :=
  match skipSpaces cs with
  | '>' :: rest => some ([], .opened, rest)
  | '/' :: '>' :: rest => some ([], .closed, rest)
  | _ =>
    if cs.isEmpty then some ([], .missing, [])
    else if cs.head?.any isSpace then
      match h : attribute? (skipSpaces cs) with
      | none => none
      | some (a, rest) =>
        have : rest.length < cs.length := Nat.lt_of_lt_of_le (length_attribute? h) (length_skipSpaces cs)
        (attributes? rest).map fun (as, ending, rest) => (a :: as, ending, rest)
    else none
termination_by cs.length

theorem length_attributes? {cs rest : List Char} {as : List RawAttribute} {ending : TagEnd}
    (h : attributes? cs = some (as, ending, rest)) : rest.length ≤ cs.length := by
  fun_induction attributes? cs generalizing as ending rest with
  | case1 cs r hr => have := length_skipSpaces cs; grind
  | case2 cs r hr => have := length_skipSpaces cs; grind
  | case3 => grind
  | case4 => simp at h
  | case5 cs _ _ _ _ a r ha hr ih =>
    simp only [Option.map_eq_some_iff, Prod.exists, Prod.mk.injEq] at h
    obtain ⟨as', c', r', hr', -, -, rfl⟩ := h
    grind
  | case6 => simp at h

def Token.next? : List Char → Option (Token × List Char)
  | '<' :: '!' :: '-' :: '-' :: cs =>
    match breakAt? ['-', '-', '>'] cs with
    | some (raw, rest) =>
      if raw.all isChar && !hasInfix ['-', '-'] raw && raw.getLast? != some '-' then some (.comment raw, rest) else none
    | none => none
  | '<' :: '!' :: cs =>
    match after? "[CDATA[".toList cs with
    | some cs =>
      match breakAt? [']', ']', '>'] cs with
      | some (raw, rest) => if raw.all isChar then some (.cdata raw, rest) else none
      | none => none
    | none => none
  | '<' :: '?' :: cs =>
    if "xml ".toList.isPrefixOf cs then none
    else
      match name? cs with
      | some (target, cs) =>
        match breakAt? ['?', '>'] (skipSpaces cs) with
        | some (raw, rest) => if raw.all isChar then some (.instruction target raw, rest) else none
        | none => none
      | none => none
  | '<' :: '/' :: cs =>
    match qname? cs with
    | some (name, cs) =>
      match skipSpaces cs with
      | '>' :: rest => some (.stop name, rest)
      | _ => none
    | none => none
  | '<' :: cs =>
    match qname? cs with
    | some (name, cs) => (attributes? cs).map fun (as, ending, rest) => (.start name as ending, rest)
    | none => none
  | [] => none
  | c :: cs =>
    let raw := c :: cs.takeWhile (· != '<')
    if raw.all isChar && !hasInfix [']', ']', '>'] raw then some (.text raw, cs.dropWhile (· != '<')) else none

theorem Token.length_next? {cs rest : List Char} {t : Token} (h : next? cs = some (t, rest)) :
    rest.length < cs.length := by
  unfold next? at h
  split at h
  · split at h
    · rename_i hb
      have := length_breakAt? hb
      grind
    · simp at h
  · split at h
    · rename_i ha
      have := length_after? ha
      split at h
      · rename_i hb
        have := length_breakAt? hb
        grind
      · simp at h
    · simp at h
  · split at h
    · simp at h
    · split at h
      · rename_i r hn
        have := length_name? hn
        have := length_skipSpaces r
        split at h
        · rename_i hb
          have := length_breakAt? hb
          grind
        · simp at h
      · simp at h
  · split at h
    · rename_i r hq
      have := length_qname? hq
      have := length_skipSpaces r
      split at h <;> grind
    · simp at h
  · split at h
    · rename_i hq
      have := length_qname? hq
      simp only [Option.map_eq_some_iff, Prod.exists, Prod.mk.injEq] at h
      obtain ⟨as, c, r, hr, -, rfl⟩ := h
      have := length_attributes? hr
      grind
    · simp at h
  · simp at h
  · rename_i c cs _ _ _ _ _
    have := (List.dropWhile_suffix (l := cs) fun c => c != '<').length_le
    grind

def Token.level (t : Token) (level : Nat) : Nat :=
  match t with
  | .start _ _ .opened => level + 1
  | .stop _ => level - 1
  | _ => level

/-- The tokens up to the one that closes the last open element, and what follows it. There is nothing behind a
broken token. -/
def tokens (level : Nat) (cs : List Char) : List Token × List Char :=
  if cs.isEmpty then ([], [])
  else
    match h : Token.next? cs with
    | none => ([.broken], [])
    | some (t, rest) =>
      have := Token.length_next? h
      if t.level level = 0 then ([t], rest)
      else
        let (ts, rest) := tokens (t.level level) rest
        (t :: ts, rest)
termination_by cs.length

end Bisection.Xml
