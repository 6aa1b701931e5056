import CryptoConditions.Proofs.Bytes
import CryptoConditions.Proofs.Steps
import CryptoConditions.Text.Base64

/-! Reading base64 text gives back the bytes that it was written from, and no other text
is read as these bytes. -/

namespace CryptoConditions.Base64

theorem symbolValue?_symbol : ∀ n < 64, symbolValue? (symbol n) = some n := by
  decide

theorem symbol_ne_padding : ∀ n < 64, symbol n ≠ paddingSign := by
  decide

theorem symbol_toNat_lt : ∀ n < 64, (symbol n).toNat < 128 := by
  decide

theorem symbol_ne_colon : ∀ n < 64, Char.ofNat (symbol n).toNat ≠ ':' := by
  decide

theorem valueAt_symbol {n : Nat} (small : n < 64) (offset : Nat) :
    valueAt (symbol n) offset = .ok n := by
  simp [valueAt, symbolValue?_symbol n small]

theorem scanLast_symbols (start index : Nat) (values : List Nat) (small : ∀ n ∈ values, n < 64) :
    scanLast start index none (values.map symbol) =
      .ok (values.map fun n => (symbol n, n), none) := by
  induction values generalizing index with
  | nil => rfl
  | cons n rest ih =>
    have head : n < 64 := small n (by simp)
    have tail := ih (index + 1) fun m mem => small m (by simp [mem])
    simp only [List.map_cons, scanLast, if_neg (symbol_ne_padding n head), valueAt_symbol head,
      tail]
    rfl

theorem encodeSymbols_mem {bytes : Bytes} {s : UInt8} (mem : s ∈ encodeSymbols bytes) :
    ∃ n < 64, s = symbol n := by
  fun_induction encodeSymbols bytes with
  | case1 => simp at mem
  | case2 a =>
    have ha := a.toNat_lt
    simp only [List.mem_cons, List.not_mem_nil, or_false] at mem
    rcases mem with rfl | rfl
    · exact ⟨_, by omega, rfl⟩
    · exact ⟨_, by omega, rfl⟩
  | case3 a b =>
    have ha := a.toNat_lt
    have hb := b.toNat_lt
    simp only [List.mem_cons, List.not_mem_nil, or_false] at mem
    rcases mem with rfl | rfl | rfl
    · exact ⟨_, by omega, rfl⟩
    · exact ⟨_, by omega, rfl⟩
    · exact ⟨_, by omega, rfl⟩
  | case4 a b c rest ih =>
    have ha := a.toNat_lt
    have hb := b.toNat_lt
    have hc := c.toNat_lt
    simp only [List.mem_cons] at mem
    rcases mem with rfl | rfl | rfl | rfl | mem
    · exact ⟨_, by omega, rfl⟩
    · exact ⟨_, by omega, rfl⟩
    · exact ⟨_, by omega, rfl⟩
    · exact ⟨_, by omega, rfl⟩
    · exact ih mem

theorem encodeSymbols_length (bytes : Bytes) : (encodeSymbols bytes).length % 4 ≠ 1 := by
  fun_induction encodeSymbols bytes with
  | case1 => simp
  | case2 => simp
  | case3 => simp
  | case4 a b c rest ih =>
    simp only [List.length_cons]
    omega

private theorem ofNat_eq {n : Nat} {a : UInt8} (same : n = a.toNat) : UInt8.ofNat n = a := by
  rw [same, UInt8.ofNat_toNat]

theorem decodeLast_one (start : Nat) (a : UInt8) :
    decodeLast start (encodeSymbols [a]) = .ok [a] := by
  have ha := a.toNat_lt
  have scan := scanLast_symbols start 0 [a.toNat / 4, a.toNat % 4 * 16]
    (by simp only [List.mem_cons, List.not_mem_nil, or_false]; omega)
  have first : UInt8.ofNat (a.toNat / 4 * 4 + a.toNat % 4 * 16 / 16) = a := ofNat_eq (by omega)
  simp only [List.map_cons, List.map_nil] at scan
  simp only [encodeSymbols, decodeLast, scan, bind, Except.bind, pure, Except.pure, first]
  simp

theorem decodeLast_two (start : Nat) (a b : UInt8) :
    decodeLast start (encodeSymbols [a, b]) = .ok [a, b] := by
  have ha := a.toNat_lt
  have hb := b.toNat_lt
  have scan := scanLast_symbols start 0
    [a.toNat / 4, a.toNat % 4 * 16 + b.toNat / 16, b.toNat % 16 * 4]
    (by simp only [List.mem_cons, List.not_mem_nil, or_false]; omega)
  have first : UInt8.ofNat (a.toNat / 4 * 4 + (a.toNat % 4 * 16 + b.toNat / 16) / 16) = a :=
    ofNat_eq (by omega)
  have second : UInt8.ofNat ((a.toNat % 4 * 16 + b.toNat / 16) % 16 * 16 +
      b.toNat % 16 * 4 / 4) = b := ofNat_eq (by omega)
  simp only [List.map_cons, List.map_nil] at scan
  simp only [encodeSymbols, decodeLast, scan, bind, Except.bind, pure, Except.pure, first, second]
  simp

private theorem group_bytes (a b c : UInt8) :
    UInt8.ofNat (a.toNat / 4 * 4 + (a.toNat % 4 * 16 + b.toNat / 16) / 16) = a ∧
    UInt8.ofNat ((a.toNat % 4 * 16 + b.toNat / 16) % 16 * 16 +
      (b.toNat % 16 * 4 + c.toNat / 64) / 4) = b ∧
    UInt8.ofNat ((b.toNat % 16 * 4 + c.toNat / 64) % 4 * 64 + c.toNat % 64) = c := by
  have ha := a.toNat_lt
  have hb := b.toNat_lt
  have hc := c.toNat_lt
  exact ⟨ofNat_eq (by omega), ofNat_eq (by omega), ofNat_eq (by omega)⟩

theorem decodeLast_three (start : Nat) (a b c : UInt8) :
    decodeLast start (encodeSymbols [a, b, c]) = .ok [a, b, c] := by
  have ha := a.toNat_lt
  have hb := b.toNat_lt
  have hc := c.toNat_lt
  have scan := scanLast_symbols start 0 [a.toNat / 4, a.toNat % 4 * 16 + b.toNat / 16,
    b.toNat % 16 * 4 + c.toNat / 64, c.toNat % 64]
    (by simp only [List.mem_cons, List.not_mem_nil, or_false]; omega)
  obtain ⟨first, second, third⟩ := group_bytes a b c
  simp only [List.map_cons, List.map_nil] at scan
  simp only [encodeSymbols, decodeLast, scan, bind, Except.bind, pure, Except.pure, first, second,
    third]
  simp

theorem decodeSymbols_encodeSymbols (start : Nat) (bytes : Bytes) :
    decodeSymbols start (encodeSymbols bytes) = .ok bytes := by
  fun_induction encodeSymbols bytes generalizing start with
  | case1 => rfl
  | case2 a => exact decodeLast_one start a
  | case3 a b => exact decodeLast_two start a b
  | case4 a b c rest ih =>
    cases rest with
    | nil => exact decodeLast_three start a b c
    | cons d more =>
      have ha := a.toNat_lt
      have hb := b.toNat_lt
      have hc := c.toNat_lt
      obtain ⟨first, second, third⟩ := group_bytes a b c
      obtain ⟨e, tail, shape⟩ : ∃ e tail, encodeSymbols (d :: more) = e :: tail := by
        rcases more with _ | ⟨_, _ | ⟨_, _⟩⟩ <;> exact ⟨_, _, rfl⟩
      have step := ih (start + 4)
      rw [shape] at step ⊢
      simp only [decodeSymbols, valueAt_symbol (show a.toNat / 4 < 64 by omega),
        valueAt_symbol (show a.toNat % 4 * 16 + b.toNat / 16 < 64 by omega),
        valueAt_symbol (show b.toNat % 16 * 4 + c.toNat / 64 < 64 by omega),
        valueAt_symbol (show c.toNat % 64 < 64 by omega), step, bind, Except.bind, pure,
        Except.pure, first, second, third]

theorem utf8_ofNat {bytes : Bytes} (ascii : ∀ b ∈ bytes, b.toNat < 128) :
    utf8 (String.ofList (bytes.map fun b => Char.ofNat b.toNat)) = bytes := by
  rw [utf8, String.toList_ofList]
  induction bytes with
  | nil => rfl
  | cons b rest ih =>
    have small : b.toNat < 128 := ascii b (by simp)
    have one : String.utf8EncodeChar (Char.ofNat b.toNat) = [b] := by
      have value : (Char.ofNat b.toNat).val.toNat = b.toNat := by
        rw [Char.ofNat, dif_pos (Or.inl (by omega))]
        rfl
      unfold String.utf8EncodeChar
      simp only [value]
      rw [if_pos (by omega)]
      simp
    rw [List.map_cons, List.flatMap_cons, one, ih fun c mem => ascii c (by simp [mem])]
    rfl

theorem utf8_encode (bytes : Bytes) : utf8 (encode bytes) = encodeSymbols bytes := by
  apply utf8_ofNat
  intro s mem
  obtain ⟨n, small, rfl⟩ := encodeSymbols_mem mem
  exact symbol_toNat_lt n small

theorem decode_encodeChars (bytes : Bytes) :
    decode (String.ofList (encodeChars bytes)) = .ok bytes := by
  rw [decode, ← encode, utf8_encode, stray?, if_neg (encodeSymbols_length bytes)]
  exact decodeSymbols_encodeSymbols 0 bytes

theorem colon_notMem_encodeChars (bytes : Bytes) : ':' ∉ encodeChars bytes := by
  intro mem
  obtain ⟨s, inside, same⟩ := List.mem_map.1 mem
  obtain ⟨n, small, rfl⟩ := encodeSymbols_mem inside
  exact symbol_ne_colon n small same

section Exactness

variable {start index : Nat}

theorem symbol_of_value : ∀ b < 256, ∀ n ∈ symbolValue? (UInt8.ofNat b),
    n < 64 ∧ UInt8.ofNat b = symbol n := by
  decide +kernel

theorem valueAt_ok {byte : UInt8} {offset n : Nat} (ok : valueAt byte offset = .ok n) :
    n < 64 ∧ symbol n = byte := by
  unfold valueAt at ok
  split at ok
  · next known =>
    cases ok
    obtain ⟨small, same⟩ := symbol_of_value byte.toNat byte.toNat_lt n (by simpa using known)
    exact ⟨small, by simpa using same.symm⟩
  · cases ok

theorem scanLast_padded {offset : Nat} {rest : Bytes} {found : List (UInt8 × Nat)} :
    scanLast start index (some offset) rest ≠ .ok (found, none) := by
  induction rest generalizing index offset found with
  | nil => simp [scanLast]
  | cons byte rest ih =>
    rw [scanLast]
    split
    · split
      · simp
      · exact ih
    · simp

theorem scanLast_ok {group : Bytes} {found : List (UInt8 × Nat)}
    (ok : scanLast start index none group = .ok (found, none)) :
    group = found.map (fun pair => symbol pair.2) ∧ ∀ pair ∈ found, pair.2 < 64 := by
  induction group generalizing index found with
  | nil =>
    cases ok
    simp
  | cons byte rest ih =>
    rw [scanLast] at ok
    split at ok
    · split at ok
      · cases ok
      · exact absurd ok scanLast_padded
    · simp only [bind_eq_ok] at ok
      obtain ⟨value, known, ⟨others, padding⟩, scanned, same⟩ := ok
      cases same
      obtain ⟨small, same⟩ := valueAt_ok known
      obtain ⟨tail, bound⟩ := ih scanned
      exact ⟨by simp [same, tail], List.forall_mem_cons.2 ⟨small, bound⟩⟩

private theorem group_values {w x y z : Nat} (hw : w < 64) (hx : x < 64) (hy : y < 64)
    (hz : z < 64) :
    (UInt8.ofNat (w * 4 + x / 16)).toNat / 4 = w ∧
    (UInt8.ofNat (w * 4 + x / 16)).toNat % 4 * 16 +
      (UInt8.ofNat (x % 16 * 16 + y / 4)).toNat / 16 = x ∧
    (UInt8.ofNat (x % 16 * 16 + y / 4)).toNat % 16 * 4 +
      (UInt8.ofNat (y % 4 * 64 + z)).toNat / 64 = y ∧
    (UInt8.ofNat (y % 4 * 64 + z)).toNat % 64 = z := by
  simp only [UInt8.toNat_ofNat']
  omega

private theorem two_values {w x : Nat} (hw : w < 64) (hx : x < 64) (unused : x % 16 = 0) :
    (UInt8.ofNat (w * 4 + x / 16)).toNat / 4 = w ∧
      (UInt8.ofNat (w * 4 + x / 16)).toNat % 4 * 16 = x := by
  simp only [UInt8.toNat_ofNat']
  omega

private theorem third_value (x : Nat) {y : Nat} (hy : y < 64) (unused : y % 4 = 0) :
    (UInt8.ofNat (x % 16 * 16 + y / 4)).toNat % 16 * 4 = y := by
  rw [UInt8.toNat_ofNat']
  omega

theorem decodeLast_ok {group bytes : Bytes} (few : group.length ≤ 4)
    (ok : decodeLast start group = .ok bytes) : group = encodeSymbols bytes := by
  simp only [decodeLast, bind_eq_ok, throw_bind] at ok
  obtain ⟨⟨found, padding⟩, scanned, ok⟩ := ok
  dsimp only at ok
  split at ok
  · cases ok
  · next enough =>
    split at ok
    · cases ok
    · next plain =>
      obtain rfl : padding = none := by simpa using plain
      obtain ⟨rfl, small⟩ := scanLast_ok scanned
      simp only [List.length_map] at few
      match found with
      | [_] => simp at enough
      | [(_, a), (_, b)] =>
        simp only [List.mem_cons, List.not_mem_nil, or_false, forall_eq_or_imp, forall_eq] at small
        dsimp only at ok
        split at ok
        · cases ok
        · next unused =>
          cases ok
          obtain ⟨first, second⟩ := two_values small.1 small.2 (not_not.1 unused)
          simp only [List.map_cons, List.map_nil, encodeSymbols, first, second]
      | [(_, a), (_, b), (_, c)] =>
        simp only [List.mem_cons, List.not_mem_nil, or_false, forall_eq_or_imp, forall_eq] at small
        dsimp only at ok
        split at ok
        · cases ok
        · next unused =>
          cases ok
          obtain ⟨first, second, _⟩ := @group_values a b c 0 small.1 small.2.1 small.2.2 (by decide)
          have third := third_value b small.2.2 (not_not.1 unused)
          simp only [List.map_cons, List.map_nil, encodeSymbols, first, second, third]
      | [(_, a), (_, b), (_, c), (_, d)] =>
        simp only [List.mem_cons, List.not_mem_nil, or_false, forall_eq_or_imp, forall_eq] at small
        cases ok
        obtain ⟨first, second, third, fourth⟩ :=
          group_values small.1 small.2.1 small.2.2.1 small.2.2.2
        simp only [List.map_cons, List.map_nil, encodeSymbols, first, second, third, fourth]

theorem decodeSymbols_ok {symbols bytes : Bytes} (ok : decodeSymbols start symbols = .ok bytes) :
    symbols = encodeSymbols bytes := by
  fun_induction decodeSymbols start symbols generalizing bytes with
  | case1 =>
    cases ok
    rfl
  | case2 start a b c d e rest ih =>
    simp only [bind_eq_ok, pure_eq_ok] at ok
    obtain ⟨w, first, x, second, y, third, z, fourth, more, others, rfl⟩ := ok
    obtain ⟨hw, rfl⟩ := valueAt_ok first
    obtain ⟨hx, rfl⟩ := valueAt_ok second
    obtain ⟨hy, rfl⟩ := valueAt_ok third
    obtain ⟨hz, rfl⟩ := valueAt_ok fourth
    obtain ⟨first, second, third, fourth⟩ := group_values hw hx hy hz
    rw [encodeSymbols, first, second, third, fourth, ih others]
  | case3 start group _ short =>
    apply decodeLast_ok _ ok
    match group, short with
    | [], _ | [_], _ | [_, _], _ | [_, _, _], _ | [_, _, _, _], _ => simp
    | a :: b :: c :: d :: e :: rest, short => exact absurd rfl (short a b c d e rest)

theorem decode_ok {text : String} {bytes : Bytes} (ok : decode text = .ok bytes) :
    text = encode bytes := by
  apply utf8_injective
  rw [utf8_encode]
  unfold decode at ok
  dsimp only at ok
  split at ok
  · cases ok
  · exact decodeSymbols_ok ok

end Exactness

end CryptoConditions.Base64
