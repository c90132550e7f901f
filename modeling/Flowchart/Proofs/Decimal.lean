import Flowchart.Decimal

/-!
# The text of numbers

* `of_mem_render`: a decimal is written in digits and points.
* `Signed`: the sign bit of a 32 bit number is set. `exists_renderNumber_eq`: such a number is
  written with a minus sign, any other without one, and the rest is letters, digits and points.
-/

namespace Flowchart

theorem Decimal.of_mem_render {d : Decimal} {c : Char} (h : c ∈ d.render.toList) :
    c.isDigit = true ∨ c = '.' := by
  have hdigits : ∀ c ∈ (toString d.digits).toList, c.isDigit = true := by
    intro c hc
    rw [Nat.toString_eq_repr, Nat.toList_repr] at hc
    exact Nat.isDigit_of_mem_toDigits (by decide) (by decide) hc
  have hzeros (n : Nat) : ∀ c ∈ List.replicate n '0', c.isDigit = true := by
    intro c hc
    rw [List.eq_of_mem_replicate hc]
    decide
  unfold Decimal.render at h
  simp only at h
  split at h
  · rw [String.toList_ofList] at h
    rcases List.mem_append.mp h with h | h
    · exact .inl (hdigits c h)
    · exact .inl (hzeros _ c h)
  · rw [String.toList_ofList] at h
    have hpadded : ∀ n, ∀ c ∈ List.replicate n '0' ++ (toString d.digits).toList,
        c.isDigit = true := fun n => List.forall_mem_append.mpr ⟨hzeros n, hdigits⟩
    rcases List.mem_append.mp h with h | h
    · exact .inl (hpadded _ c (List.mem_of_mem_take h))
    · rcases List.mem_cons.mp h with rfl | h
      · exact .inr rfl
      · exact .inl (hpadded _ c (List.mem_of_mem_drop h))

/-- The sign bit of the number is set. -/
def Signed (a : Float32) : Prop := Nat.pow 2 31 ≤ a.toBits.toNat

instance (a : Float32) : Decidable (Signed a) := inferInstanceAs (Decidable (_ ≤ _))

section Sign

open Float.Model UnpackedFloat

variable {a : Float32}

/-- There is one bit pattern only that is not a number, and its sign bit is not set. -/
theorem not_signed_of_nan (he : a.toBits.toNat / Nat.pow 2 23 % Nat.pow 2 8 = 255)
    (hm : a.toBits.toNat % Nat.pow 2 23 ≠ 0) : ¬ Signed a := by
  have hexponent : @unpackExponent .binary32 a.toBits.toBitVec = -1#8 := by
    apply BitVec.eq_of_toNat_eq
    simpa [unpackExponent, Nat.shiftRight_eq_div_pow] using he
  have hmantissa : @unpackMantissa .binary32 a.toBits.toBitVec ≠ 0#23 := by
    intro h
    apply hm
    have h := congrArg BitVec.toNat h
    simpa [unpackMantissa] using h
  have hbits := a.toModel.valid.eq_packedNaN hexponent hmantissa
  have hnat : a.toBits.toNat = (packedNaN .binary32).toNat := congrArg BitVec.toNat hbits
  rw [Signed, hnat]
  decide

/-- What is written after the sign is made of letters, digits and points. -/
theorem exists_renderNumber_eq (a : Float32) : ∃ t : List Char,
    (renderNumber a).toList = (if Signed a then '-' :: t else t) ∧
      ∀ c ∈ t, c.isAlphanum = true ∨ c = '.' := by
  have hrender (d : Decimal) : ∀ c ∈ d.render.toList, c.isAlphanum = true ∨ c = '.' := by
    intro c hc
    have hdigit := Decimal.of_mem_render hc
    grind [Char.isAlphanum]
  have hword {t : String} (h : t.toList.all (fun c => c.isAlphanum || c == '.') = true) :
      ∀ c ∈ t.toList, c.isAlphanum = true ∨ c = '.' := by simpa using h
  unfold renderNumber
  extract_lets bits mantissa exponent magnitude
  by_cases hnan : exponent = 255 ∧ mantissa ≠ 0
  · refine ⟨"NaN".toList, ?_, hword (by decide)⟩
    rw [if_pos hnan, if_neg (not_signed_of_nan hnan.1 hnan.2)]
  · refine ⟨magnitude.toList, ?_, ?_⟩
    · rw [if_neg hnan]
      by_cases hs : Signed a
      · rw [if_neg (Nat.not_lt.mpr hs), if_pos hs, String.toList_append]
        rfl
      · rw [if_pos (Nat.not_le.mp hs), if_neg hs]
    · unfold magnitude
      split
      · exact hword (by decide)
      · split
        · split
          · exact hword (by decide)
          · exact hrender _
        · exact hrender _

end Sign

end Flowchart
