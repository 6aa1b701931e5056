import CryptoConditions.Proofs.Wire.Reading

/-! A read that succeeds has taken exactly the bytes that writing its value gives:
no value has a second form. -/

namespace CryptoConditions.Wire.Reader

variable {α β : Type}

theorem bind_ok {read : Reader α} {next : α → Reader β} {bytes rest : Bytes} {b : β}
    (ok : (read >>= next) bytes = (.ok b, rest)) :
    ∃ a mid, read bytes = (.ok a, mid) ∧ next a mid = (.ok b, rest) := by
  simp only [bind] at ok
  split at ok
  · next a mid first => exact ⟨a, mid, first, ok⟩
  · cases ok

theorem pure_ok {a b : α} {bytes rest : Bytes} (ok : (pure a : Reader α) bytes = (.ok b, rest)) :
    b = a ∧ rest = bytes := by
  cases ok
  exact ⟨rfl, rfl⟩

theorem fail_not_ok {error : CodecError} {bytes rest : Bytes} {a : α} :
    (fail error : Reader α) bytes ≠ (.ok a, rest) := nofun

theorem orThrow_eq_ok {ε : Type} {wrap : CodecError → ε} {read : Reader α} {bytes rest : Bytes}
    {a : α} : read.orThrow wrap bytes = .ok (a, rest) ↔ read bytes = (.ok a, rest) := by
  unfold orThrow
  split
  · next found => rw [found, Except.ok.injEq, Prod.mk.injEq, Prod.mk.injEq, Except.ok.injEq]
  · next found => simp [found]

theorem exact_ok {count : Nat} {bytes raw rest : Bytes}
    (ok : exact count bytes = (.ok raw, rest)) : bytes = raw ++ rest ∧ raw.length = count := by
  unfold exact at ok
  split at ok
  · cases ok
  · next enough =>
    cases ok
    exact ⟨(List.take_append_drop count bytes).symm, by simp; omega⟩

theorem fixed_ok {width n : Nat} {bytes rest : Bytes} (ok : fixed width bytes = (.ok n, rest)) :
    bytes = bigEndian width n ++ rest ∧ n < 256 ^ width := by
  obtain ⟨raw, mid, read, value⟩ := bind_ok ok
  obtain ⟨rfl, rfl⟩ := pure_ok value
  obtain ⟨rfl, rfl⟩ := exact_ok read
  exact ⟨by rw [bigEndian_ofBigEndian rfl], ofBigEndian_lt raw⟩

theorem length_ok {n : Nat} {bytes rest : Bytes} (ok : length bytes = (.ok n, rest)) :
    bytes = Wire.length n ++ rest ∧ n < 2 ^ 64 := by
  obtain ⟨first, mid, read, then_⟩ := bind_ok ok
  obtain ⟨rfl, small⟩ := fixed_ok read
  by_cases short : first < 128
  · rw [if_pos short] at then_
    obtain ⟨rfl, rfl⟩ := pure_ok then_
    exact ⟨by simp [Wire.length, short, bigEndian], by omega⟩
  · rw [if_neg short] at then_
    split at then_
    · exact absurd then_ fail_not_ok
    · next width =>
      obtain ⟨raw, tail, taken, last⟩ := bind_ok then_
      obtain ⟨rfl, long⟩ := exact_ok taken
      split at last
      · exact absurd last fail_not_ok
      · next minimal =>
        obtain ⟨rfl, rfl⟩ := pure_ok last
        simp only [not_or, maxLengthBytes] at width minimal
        have nonempty : raw ≠ [] := by
          rintro rfl
          exact width.1 long.symm
        have form := minimalBigEndian_ofBigEndian nonempty fun zero => minimal.1 zero.2
        have span := minimalBigEndian_length (ofBigEndian raw)
        rw [form, long] at span
        have bound : ofBigEndian raw < 256 ^ 8 :=
          Nat.lt_of_lt_of_le (ofBigEndian_lt raw) (Nat.pow_le_pow_right (by decide) (by omega))
        refine ⟨?_, bound⟩
        rw [Wire.length, if_neg minimal.2, form, ← span, Nat.add_sub_cancel' (by omega)]
        simp [bigEndian]

theorem octets_ok {bytes raw rest : Bytes} (ok : octets bytes = (.ok raw, rest)) :
    bytes = Wire.octets raw ++ rest ∧ raw.length < 2 ^ 64 := by
  obtain ⟨n, mid, read, taken⟩ := bind_ok ok
  obtain ⟨rfl, small⟩ := length_ok read
  obtain ⟨rfl, rfl⟩ := exact_ok taken
  exact ⟨by rw [Wire.octets, List.append_assoc], small⟩

theorem uint_ok {n : Nat} {bytes rest : Bytes} (ok : uint bytes = (.ok n, rest)) :
    bytes = Wire.uint n ++ rest ∧ n < 2 ^ 64 := by
  obtain ⟨raw, mid, read, then_⟩ := bind_ok ok
  obtain ⟨rfl, _⟩ := octets_ok read
  split at then_
  · exact absurd then_ fail_not_ok
  · next nonempty =>
    split at then_
    · exact absurd then_ fail_not_ok
    · next narrow =>
      split at then_
      · exact absurd then_ fail_not_ok
      · next minimal =>
        obtain ⟨rfl, rfl⟩ := pure_ok then_
        have form := minimalBigEndian_ofBigEndian (by simpa using nonempty) minimal
        refine ⟨by rw [Wire.uint, form], ?_⟩
        exact Nat.lt_of_lt_of_le (ofBigEndian_lt raw)
          (Nat.pow_le_pow_right (by decide) (show raw.length ≤ 8 by omega))

theorem finish_ok {bytes rest : Bytes} (ok : finish bytes = (.ok (), rest)) : bytes = [] := by
  unfold finish at ok
  split at ok
  · next empty => simpa using empty
  · cases ok

end CryptoConditions.Wire.Reader
