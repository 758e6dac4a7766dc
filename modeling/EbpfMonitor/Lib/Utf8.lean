import EbpfMonitor.Lib.Decimal
import Mathlib.Data.List.Basic

/-! # Texts of octets that are UTF-8

A text whose characters stand for octets is UTF-8 when the octets are.  What UTF-8 is comes from
the core library; here a text is cut at a character below 128, which is never part of a longer
encoding: `isUtf8_cut`. -/

namespace Text

/-- The octets of a text. -/
def octets (t : Text) : List UInt8 := t.map (fun c => UInt8.ofNat c.toNat)

/-- The characters are octets, and these are UTF-8. -/
def IsUtf8 (t : Text) : Prop := (∀ c ∈ t, c.toNat < 256) ∧ (octets t).toByteArray.IsValidUTF8

instance (t : Text) : Decidable (IsUtf8 t) := inferInstanceAs (Decidable (_ ∧ _))

/-- The octets of the encoding of a character, as a text. -/
def utf8 (c : Char) : Text := (String.utf8EncodeChar c).map (fun b => Char.ofNat b.toNat)

theorem length_utf8_le (c : Char) : (utf8 c).length ≤ 4 := by
  rw [utf8, List.length_map, String.length_utf8EncodeChar]
  exact c.utf8Size_le_four

theorem isUtf8_nil : IsUtf8 [] := ⟨nofun, ByteArray.isValidUTF8_empty⟩

section ascii

variable {d : Char} (hd : d.toNat < 128)

include hd

/-- A character below 128 is its own encoding. -/
theorem utf8EncodeChar_ascii : String.utf8EncodeChar d = [UInt8.ofNat d.toNat] := by
  have hsmall : d.val.toNat ≤ 127 := Nat.le_of_lt_succ hd
  unfold String.utf8EncodeChar
  exact if_pos hsmall

theorem isValidUTF8_cons (bs : List UInt8) :
    (UInt8.ofNat d.toNat :: bs).toByteArray.IsValidUTF8 ↔ bs.toByteArray.IsValidUTF8 := by
  have hd' : [UInt8.ofNat d.toNat].toByteArray = [d].utf8Encode := by
    rw [List.utf8Encode, List.flatMap_singleton, utf8EncodeChar_ascii hd]
  rw [show UInt8.ofNat d.toNat :: bs = [UInt8.ofNat d.toNat] ++ bs from rfl, List.toByteArray_append, hd']
  exact ByteArray.isValidUTF8_utf8Encode_singleton_append_iff

/-- The octet of `d` only occurs at the start of an encoding. -/
theorem eq_nil_of_utf8EncodeChar {c : Char} {xs ys : List UInt8}
    (h : String.utf8EncodeChar c = xs ++ UInt8.ofNat d.toNat :: ys) : xs = [] := by
  have hfirst : (UInt8.ofNat d.toNat).IsUTF8FirstByte := by
    have hzero := (@UInt8.isUTF8FirstByte_getElem_utf8EncodeChar d 0
      (by simp [utf8EncodeChar_ascii hd])).mpr rfl
    simp only [utf8EncodeChar_ascii hd, List.getElem_cons_zero] at hzero
    exact hzero
  have hlen : xs.length < (String.utf8EncodeChar c).length := by simp [h]
  refine List.eq_nil_of_length_eq_zero
    ((@UInt8.isUTF8FirstByte_getElem_utf8EncodeChar c xs.length hlen).mp ?_)
  simp only [h, List.getElem_append_right le_rfl, Nat.sub_self, List.getElem_cons_zero]
  exact hfirst

/-- Among encoded characters, what comes before the octet of `d` is encoded, and so is what comes
after it. -/
theorem isValidUTF8_cut {m : List Char} {xs ys : List UInt8}
    (h : m.flatMap String.utf8EncodeChar = xs ++ UInt8.ofNat d.toNat :: ys) :
    xs.toByteArray.IsValidUTF8 ∧ ys.toByteArray.IsValidUTF8 := by
  induction m generalizing xs with
  | nil => simp at h
  | cons c m ih =>
      have hc : (String.utf8EncodeChar c).toByteArray.IsValidUTF8 := ⟨[c], by simp [List.utf8Encode]⟩
      have hcm : ((c :: m).flatMap String.utf8EncodeChar).toByteArray.IsValidUTF8 := ⟨c :: m, rfl⟩
      have hm : (m.flatMap String.utf8EncodeChar).toByteArray.IsValidUTF8 := ⟨m, rfl⟩
      rw [List.flatMap_cons] at h hcm
      obtain ⟨zs, rfl, hzs⟩ | ⟨zs, hxs, hzs⟩ := List.append_eq_append_iff.mp h
      · rw [List.toByteArray_append]
        exact ⟨hc.append (ih hzs).1, (ih hzs).2⟩
      · cases zs with
        | nil =>
            rw [List.append_nil] at hxs
            rw [List.nil_append] at hzs
            exact ⟨hxs ▸ hc, (isValidUTF8_cons hd ys).mp (hzs ▸ hm)⟩
        | cons z zs =>
            -- the octet is inside the encoding of `c`, so it is all of it
            obtain ⟨rfl, _⟩ := List.cons.inj hzs
            obtain rfl := eq_nil_of_utf8EncodeChar hd hxs
            rw [h] at hcm
            exact ⟨ByteArray.isValidUTF8_empty, (isValidUTF8_cons hd ys).mp hcm⟩

/-- **A text is UTF-8 exactly when the parts before and after a character below 128 are.** -/
theorem isUtf8_cut {x rest : Text} : IsUtf8 (x ++ d :: rest) ↔ IsUtf8 x ∧ IsUtf8 rest := by
  have hoctets : octets (x ++ d :: rest) = octets x ++ UInt8.ofNat d.toNat :: octets rest := by
    simp [octets]
  constructor
  · rintro ⟨hsmall, m, hm⟩
    rw [hoctets, List.utf8Encode, List.toByteArray_inj] at hm
    obtain ⟨hx, hrest⟩ := isValidUTF8_cut hd hm.symm
    exact ⟨⟨fun c hc => hsmall c (by simp [hc]), hx⟩, fun c hc => hsmall c (by simp [hc]), hrest⟩
  · rintro ⟨⟨hx, hx'⟩, hrest, hrest'⟩
    refine ⟨?_, ?_⟩
    · simp only [List.mem_append, List.mem_cons]
      rintro c (hc | rfl | hc)
      · exact hx c hc
      · omega
      · exact hrest c hc
    · rw [hoctets, List.toByteArray_append]
      exact hx'.append ((isValidUTF8_cons hd _).mpr hrest')

theorem isUtf8_cons (rest : Text) : IsUtf8 (d :: rest) ↔ IsUtf8 rest := by
  have hcut : IsUtf8 (d :: rest) ↔ IsUtf8 [] ∧ IsUtf8 rest := isUtf8_cut hd (x := [])
  rw [hcut]
  exact and_iff_right isUtf8_nil

end ascii

theorem isUtf8_ascii {a : Text} (ha : ∀ c ∈ a, c.toNat < 128) : IsUtf8 a := by
  induction a with
  | nil => exact isUtf8_nil
  | cons d a ih =>
      obtain ⟨hd, ha⟩ := List.forall_mem_cons.mp ha
      exact (isUtf8_cons hd a).mpr (ih ha)

end Text
