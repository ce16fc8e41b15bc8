import Mathlib.Data.List.Nodup
import Mathlib.Data.String.Basic
import Rendition.Json.Basic

/-!
# Members in order of keys

An object is built member by member, each put where its key belongs. So if no key comes twice, the
object has the given members, sorted by their keys, and the order in which they were given does not
show.

## Main definitions

* `Json.keyLe`: The order of keys in which sorting puts them.

## Theorems

* `keyLt_iff`: Keys are compared as lists of characters are.
* `ofMembers_eq`: The object with the given members.
-/

namespace Rendition.Json

/-- Whether a key can stand before another in an object, or both are the same. -/
def keyLe (a b : String) : Bool :=
  !keyLt b.toList a.toList

/-- Keys are compared as lists of characters are. -/
theorem keyLt_iff (as : List Char) : ∀ bs : List Char, keyLt as bs = true ↔ as < bs := by
  induction as with
  | nil =>
    intro bs
    cases bs <;> simp [keyLt]
  | cons a as ih =>
    intro bs
    cases bs with
    | nil => simp [keyLt]
    | cons b bs =>
      have hchar : a < b ↔ a.toNat < b.toNat := Iff.rfl
      by_cases hab : a = b
      · simp [keyLt, hab, ih]
      · simp [keyLt, hab, List.cons_lt_cons_iff, hchar]

/-- The order of keys is the order of texts. -/
theorem keyLe_iff (a b : String) : keyLe a b = true ↔ a ≤ b := by
  rw [keyLe, Bool.not_eq_true', ← Bool.not_eq_true, keyLt_iff, ← String.lt_iff_toList_lt, not_lt]

theorem keyLe_trans {a b c : String} (hab : keyLe a b = true) (hbc : keyLe b c = true) :
    keyLe a c = true := by
  rw [keyLe_iff] at *
  exact le_trans hab hbc

theorem keyLe_total (a b : String) : (keyLe a b || keyLe b a) = true := by
  rw [Bool.or_eq_true, keyLe_iff, keyLe_iff]
  exact le_total a b

theorem keyLe_antisymm {a b : String} (hab : keyLe a b = true) (hba : keyLe b a = true) :
    a = b := by
  rw [keyLe_iff] at *
  exact le_antisymm hab hba

theorem keyLe_of_keyLt {a b : String} (h : keyLt a.toList b.toList = true) : keyLe a b = true := by
  rw [keyLt_iff, ← String.lt_iff_toList_lt] at h
  rw [keyLe_iff]
  exact le_of_lt h

/-- Whether a member can stand before another. -/
def memberLe (a b : String × Json) : Bool :=
  keyLe a.1 b.1

variable {key : String} (value : Json) {members : List (String × Json)}

/-- A member with a new key is added. -/
theorem perm_insert (h : key ∉ members.map Prod.fst) :
    (insert key value members).Perm ((key, value) :: members) := by
  induction members with
  | nil => exact .refl _
  | cons member rest ih =>
    obtain ⟨hne, hrest⟩ := not_or.mp (mt List.mem_cons.mpr h)
    rw [insert, if_neg hne]
    split
    · exact .refl _
    · exact ((ih hrest).cons member).trans (.swap _ _ _)

/-- A member goes where its key belongs. -/
theorem pairwise_insert (hkey : key ∉ members.map Prod.fst)
    (h : members.Pairwise fun a b => memberLe a b = true) :
    (insert key value members).Pairwise fun a b => memberLe a b = true := by
  induction members with
  | nil => exact List.pairwise_singleton _ _
  | cons member rest ih =>
    obtain ⟨hne, hrest⟩ := not_or.mp (mt List.mem_cons.mpr hkey)
    obtain ⟨hfirst, hlater⟩ := List.pairwise_cons.mp h
    rw [insert, if_neg hne]
    split
    case isTrue hlt =>
      have hle : keyLe key member.1 = true := keyLe_of_keyLt hlt
      refine List.pairwise_cons.mpr ⟨?_, h⟩
      intro other hother
      rcases List.mem_cons.mp hother with rfl | hother
      · exact hle
      · exact keyLe_trans hle (hfirst other hother)
    case isFalse hlt =>
      refine List.pairwise_cons.mpr ⟨?_, ih hrest hlater⟩
      intro other hother
      -- What follows the first member is the new one, or followed it before.
      rcases List.mem_cons.mp ((perm_insert value hrest).mem_iff.mp hother) with rfl | hother
      · simpa [memberLe, keyLe] using hlt
      · exact hfirst other hother

/-- Members with different keys that are new are put in order among those that are there. -/
theorem foldl_insert (new : List (String × Json))
    (h : ((members ++ new).map Prod.fst).Nodup)
    (hmembers : members.Pairwise fun a b => memberLe a b = true) :
    (new.foldl (fun acc member => insert member.1 member.2 acc) members).Perm (members ++ new) ∧
      (new.foldl (fun acc member => insert member.1 member.2 acc) members).Pairwise
        fun a b => memberLe a b = true := by
  induction new generalizing members with
  | nil => exact ⟨by rw [List.foldl_nil, List.append_nil], hmembers⟩
  | cons member new ih =>
    -- The keys stay distinct when the first of the new members moves to the others.
    have hmove : (members ++ member :: new).Perm (member :: members ++ new) := List.perm_middle
    have hdistinct := (hmove.map Prod.fst).nodup_iff.mp h
    have hnew : member.1 ∉ members.map Prod.fst := by
      rw [List.cons_append, List.map_cons, List.nodup_cons, List.map_append] at hdistinct
      exact fun hmem => hdistinct.1 (List.mem_append_left _ hmem)
    have hinsert := perm_insert member.2 hnew
    have hinserted := ((hinsert.append_right new).map Prod.fst).nodup_iff.mpr hdistinct
    obtain ⟨hperm, hsorted⟩ := ih hinserted (pairwise_insert member.2 hnew hmembers)
    exact ⟨hperm.trans ((hinsert.append_right new).trans hmove.symm), hsorted⟩

/-- The object with members of different keys has them in order of keys. -/
theorem ofMembers_eq (h : (members.map Prod.fst).Nodup) :
    ofMembers members = object (members.mergeSort memberLe) := by
  obtain ⟨hperm, hsorted⟩ := @foldl_insert [] members h .nil
  rw [List.nil_append] at hperm
  -- Two sorted lists with the same members are the same list, since no key comes twice.
  refine congrArg object (List.Perm.eq_of_pairwise ?_ hsorted ?_
    (hperm.trans (List.mergeSort_perm members memberLe).symm))
  · intro a b ha hb hab hba
    have hkey := keyLe_antisymm hab hba
    have ha := hperm.mem_iff.mp ha
    have hb := (List.mergeSort_perm members memberLe).mem_iff.mp hb
    exact List.inj_on_of_nodup_map h ha hb hkey
  · have htrans (a b c : String × Json) (hab : memberLe a b = true) (hbc : memberLe b c = true) :
        memberLe a c = true := keyLe_trans hab hbc
    have htotal (a b : String × Json) : (memberLe a b || memberLe b a) = true :=
      keyLe_total a.1 b.1
    exact List.pairwise_mergeSort htrans htotal members

end Rendition.Json
