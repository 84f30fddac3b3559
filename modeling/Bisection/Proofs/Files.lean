import Mathlib
import Bisection.Command.Run

namespace Bisection

def ReadsBack (writes : List (String × String)) (read : String → Except IoFault String) : Prop :=
  ∀ file text, writes.getLast? = some (file, text) → read file = .ok text

theorem fromUTF8?_toUTF8 (s : String) : String.fromUTF8? s.toUTF8 = some s := by
  rw [String.fromUTF8?, String.toUTF8_eq_toByteArray, dif_pos s.isValidUTF8]
  rfl

namespace FileTree

variable {t t' : FileTree} {place : List String} {bytes : ByteArray} {spot : Spot} {path text : String}

def Spot.place? : Spot → Option (List String)
  | .file place _ | .free place => some place
  | .directory | .outside => none

/-- The second tree has the first one's directories, and its files except for the one at a place, where the first
one has no directory. -/
structure Gains (t t' : FileTree) (place : List String) (bytes : ByteArray) : Prop where
  free : t.files.lookup place = none → t.isDirectory place = false
  here : t'.files.lookup place = some bytes
  other : ∀ q ≠ place, t'.files.lookup q = t.files.lookup q
  directory : ∀ q, t.isDirectory q = true → t'.isDirectory q = true

theorem follow_spec {start : Option (List String)} {names : List String} (h : t.follow start names = .ok spot) :
    (∀ place bytes, spot = .file place bytes → t.files.lookup place = some bytes) ∧
      ∀ place, spot = .free place → t.files.lookup place = none ∧ t.isDirectory place = false := by
  fun_induction FileTree.follow t start names with
  | _ => grind

theorem Gains.follow (h : t.Gains t' place bytes) {start : Option (List String)} {names : List String}
    (hspot : spot.place? = some place) (hf : t.follow start names = .ok spot) :
    t'.follow start names = .ok (.file place bytes) := by
  fun_induction FileTree.follow t start names with
  | case1 => cases hf; cases hspot
  | case2 name rest hname ih => simpa [FileTree.follow, hname] using ih hf
  | case3 => cases hf; cases hspot
  | case4 => cases hf
  | case5 q name rest hidle ih => simpa [FileTree.follow, hidle] using ih hf
  | case6 q name rest hidle hup ih => simpa [FileTree.follow, hidle, hup] using ih hf
  | case7 q name rest hidle hup place' b hb hrest =>
      cases hf
      obtain rfl : q ++ [name] = place := Option.some.inj hspot
      simp [FileTree.follow, hidle, hup, hrest, h.here]
  | case8 => cases hf
  | case9 q name rest hidle hup place' hnone hdir ih =>
      have hne : q ++ [name] ≠ place := by
        rintro rfl
        exact absurd hdir (by simp [place', h.free hnone])
      have hnone' : t'.files.lookup (q ++ [name]) = none := (h.other _ hne).trans hnone
      have hdir' : t'.isDirectory (q ++ [name]) = true := h.directory _ hdir
      simpa [FileTree.follow, hidle, hup, hnone', hdir'] using ih hf
  | case10 q name rest hidle hup place' hnone hdir hrest =>
      cases hf
      obtain rfl : q ++ [name] = place := Option.some.inj hspot
      simp [FileTree.follow, hidle, hup, hrest, h.here]
  | case11 => cases hf

theorem lookup_replace (files : List (List String × ByteArray)) (place q : List String) (bytes : ByteArray) :
    (files.map fun f => if f.1 == place then (place, bytes) else f).lookup q =
      if q = place then (files.lookup place).map fun _ => bytes else files.lookup q := by
  induction files with
  | nil => simp
  | cons f files ih =>
      rw [List.map_cons]
      grind

theorem Gains.of_file {b : ByteArray} (h : t.files.lookup place = some b) (bytes : ByteArray) :
    t.Gains { t with files := t.files.map fun f => if f.1 == place then (place, bytes) else f } place bytes where
  free hnone := by cases h.symm.trans hnone
  here := by rw [lookup_replace, if_pos rfl, h, Option.map_some]
  other q hq := by rw [lookup_replace, if_neg hq]
  directory q hq := by
    have hplace (f : List String × ByteArray) : (if f.1 == place then (place, bytes) else f).1 = f.1 := by
      by_cases hf : f.1 = place
      · simp [hf]
      · simp [hf]
    simpa only [isDirectory, List.any_map, Function.comp_def, hplace] using hq

theorem Gains.of_free (hnone : t.files.lookup place = none) (hdir : t.isDirectory place = false) (bytes : ByteArray) :
    t.Gains { t with files := t.files ++ [(place, bytes)] } place bytes where
  free _ := hdir
  here := by simp [List.lookup_append, hnone]
  other q hq := by
    have hother : (q == place) = false := beq_eq_false_iff_ne.2 hq
    simp [List.lookup_append, List.lookup, hother]
  directory q hq := by
    simp only [isDirectory, List.any_append, Bool.or_eq_true] at hq ⊢
    tauto

theorem find_eq_ok (t : FileTree) (h : t.find path = .ok spot) :
    ∃ start names, t.follow start names = .ok spot ∧ ∀ u : FileTree, u.find path = u.follow start names := by
  by_cases hempty : path.isEmpty = true
  · rw [find, if_pos hempty] at h
    cases h
  · have hfind (u : FileTree) : u.find path = _ := if_neg hempty
    exact ⟨_, _, (hfind t).symm.trans h, hfind⟩

theorem Gains.read (h : t.Gains t' place text.toUTF8) (hspot : spot.place? = some place) (hf : t.find path = .ok spot) :
    t'.read path = .ok text := by
  obtain ⟨start, names, hfollow, hfind⟩ := t.find_eq_ok hf
  have hf' : t'.find path = .ok (.file place text.toUTF8) := (hfind t').trans (h.follow hspot hfollow)
  simp only [FileTree.read, hf', bind, Except.bind, pure, Except.pure, fromUTF8?_toUTF8]

/-- What was written to a path of the tree is read there. -/
theorem read_of_write (h : t.write path text = .ok t') (hin : t'.find path ≠ .ok .outside) :
    t'.read path = .ok text := by
  cases hf : t.find path with
  | error fault =>
      rw [write, hf] at h
      cases h
  | ok spot =>
      obtain ⟨start, names, hfollow, -⟩ := t.find_eq_ok hf
      obtain ⟨hfile, hfree⟩ := follow_spec hfollow
      rw [write, hf] at h
      cases spot with
      | file place b =>
          cases h
          exact (Gains.of_file (hfile place b rfl) text.toUTF8).read rfl hf
      | free place =>
          cases h
          obtain ⟨hnone, hdir⟩ := hfree place rfl
          exact (Gains.of_free hnone hdir text.toUTF8).read rfl hf
      | directory => cases h
      | outside =>
          cases h
          exact absurd hf hin

theorem writeAll_concat {writes : List (String × String)} (h : t.writeAll (writes ++ [(path, text)]) = (t', none)) :
    ∃ u : FileTree, u.write path text = .ok t' := by
  induction writes generalizing t with
  | nil =>
      refine ⟨t, ?_⟩
      cases hw : t.write path text with
      | error fault => simp [writeAll, hw] at h
      | ok u => simpa [writeAll, hw] using h
  | cons w writes ih =>
      cases hw : t.write w.1 w.2 with
      | error fault => simp [writeAll, hw] at h
      | ok u =>
          apply ih
          simpa [writeAll, hw] using h

/-- Once all files are written, the last one is read back if it lies in the tree. -/
theorem readsBack_of_writeAll {writes : List (String × String)} (h : t.writeAll writes = (t', none))
    (hin : ∀ w ∈ writes.getLast?, t'.find w.1 ≠ .ok .outside) : ReadsBack writes t'.read := by
  intro file text hlast
  obtain ⟨before, rfl⟩ := List.getLast?_eq_some_iff.1 hlast
  obtain ⟨u, hu⟩ := writeAll_concat h
  exact read_of_write hu (hin _ hlast)

end FileTree

end Bisection
