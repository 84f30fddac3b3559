import Mathlib
import Bisection.Document.NodeList
import Bisection.Proofs.Cutting

namespace Bisection

namespace PointSet

variable {s t : PointSet} {p : Point}

theorem valid_of_empty {dimensions : Nat} (h : empty dimensions = .ok s) : s.Valid := by
  rw [empty] at h
  split at h
  · cases h
  · rename_i hpos
    cases h
    exact ⟨Nat.pos_of_ne_zero hpos, by simp⟩

def Fits (N : Nat) (p : Point) : Prop := p.length = N ∧ ∀ v ∈ p, v.isFinite = true

theorem offer_of_fits (h : Fits s.dimensions p) : s.offer p = ({ s with points := s.points ++ [p] }, .ok ()) := by
  have hnone : p.findIdx? (fun v => !v.isFinite) = none := by
    rw [List.findIdx?_eq_none_iff]
    intro v hv
    simp [h.2 v hv]
  rw [offer, if_neg (not_not.2 h.1), hnone]

theorem fits_of_offer (h : s.offer p = (t, .ok ())) : Fits s.dimensions p := by
  rw [offer] at h
  split at h
  · cases h
  · rename_i hlength
    split at h
    · cases h
    · rename_i hfinite
      exact ⟨not_not.1 hlength, by simpa [List.findIdx?_eq_none_iff] using hfinite⟩

theorem offer_eq_ok : s.offer p = (t, .ok ()) ↔ Fits s.dimensions p ∧ t = { s with points := s.points ++ [p] } := by
  constructor
  · intro h
    have hfits := fits_of_offer h
    rw [offer_of_fits hfits] at h
    cases h
    exact ⟨hfits, rfl⟩
  · rintro ⟨h, rfl⟩
    exact offer_of_fits h

theorem push_eq_ok : s.push p = .ok t ↔ Fits s.dimensions p ∧ t = { s with points := s.points ++ [p] } := by
  rw [← offer_eq_ok, push]
  rcases s.offer p with ⟨u, e | ⟨⟩⟩ <;> simp

theorem Valid.push (hv : s.Valid) (h : s.push p = .ok t) : t.Valid := by
  obtain ⟨hfits, rfl⟩ := push_eq_ok.1 h
  refine ⟨hv.1, ?_⟩
  intro q hq
  rcases List.mem_append.1 hq with hq | hq
  · exact hv.2 q hq
  · obtain rfl := List.mem_singleton.1 hq
    exact hfits

end PointSet

namespace Document

theorem addNodes_cons (s : PointSet) (index : Nat) (e : Xml.Element) (rest : List Xml.Element) :
    addNodes s index (e :: rest) = (coordinates index e).bind fun p =>
      if p.length = s.dimensions then (s.push p).bind fun t => addNodes t (index + 1) rest
      else .error (.dimensionMismatch index s.dimensions p.length) := rfl

theorem valid_of_addNodes {s t : PointSet} {index : Nat} {nodes : List Xml.Element} (hv : s.Valid)
    (h : addNodes s index nodes = .ok t) : t.Valid := by
  induction nodes generalizing s index with
  | nil =>
      cases h
      exact hv
  | cons e nodes ih =>
      rw [addNodes_cons] at h
      obtain ⟨p, -, h⟩ := bind_eq_ok.1 h
      split at h
      · obtain ⟨u, hu, h⟩ := bind_eq_ok.1 h
        exact ih (hv.push hu) h
      · cases h

theorem valid_of_readPoints {text : String} {points : PointSet} (h : readPoints text = .ok points) : points.Valid := by
  obtain ⟨root, -, h⟩ := bind_eq_ok.1 h
  obtain ⟨dimensions, -, h⟩ := bind_eq_ok.1 h
  obtain ⟨s, hs, h⟩ := bind_eq_ok.1 h
  exact valid_of_addNodes (PointSet.valid_of_empty hs) h

end Document

end Bisection
