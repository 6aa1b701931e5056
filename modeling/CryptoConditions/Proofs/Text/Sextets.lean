import CryptoConditions.Proofs.Text.Base64
import CryptoConditions.Proofs.Text.Numeral

/-! Base64 text as a numeral. The symbols of bytes are the digits in base 64 of the number that
the bytes spell, with zero bits behind it up to a whole digit. Text of any other form is refused:
padding that would fill up the last group, and bits in the last symbol that belong to no byte. -/

namespace CryptoConditions.Base64

def alphabet : List Char :=
  "ABCDEFGHIJKLMNOPQRSTUVWXYZabcdefghijklmnopqrstuvwxyz0123456789-_".toList

def spelling (digits : List Nat) : String :=
  String.ofList (digits.map fun digit => alphabet.getD digit '=')

/-- Digits that hold bytes: as few as have room for them, and their number is that of the bytes
with zero bits behind it. -/
structure Holds (digits : List Nat) (bytes : Bytes) : Prop where
  small : ∀ digit ∈ digits, digit < 64
  length_eq : digits.length = (4 * bytes.length + 2) / 3
  value_eq : Numeral.value 64 digits =
    ofBigEndian bytes * 2 ^ (6 * digits.length - 8 * bytes.length)

theorem alphabet_symbol : ∀ n < 64, alphabet.getD n '=' = Char.ofNat (symbol n).toNat := by
  decide +kernel

theorem alphabet_ne_padding : ∀ n < 64, alphabet.getD n '=' ≠ '=' := by
  decide +kernel

theorem spelling_eq {digits : List Nat} (small : ∀ digit ∈ digits, digit < 64) :
    spelling digits =
      String.ofList ((digits.map symbol).map fun byte => Char.ofNat byte.toNat) := by
  rw [spelling, List.map_map]
  exact congrArg String.ofList
    (List.map_congr_left fun digit mem => alphabet_symbol digit (small digit mem))

theorem utf8_spelling {digits : List Nat} (small : ∀ digit ∈ digits, digit < 64) :
    utf8 (spelling digits) = digits.map symbol := by
  rw [spelling_eq small]
  refine utf8_ofNat fun byte mem => ?_
  obtain ⟨digit, inside, rfl⟩ := List.mem_map.1 mem
  exact symbol_toNat_lt digit (small digit inside)

theorem value_cons (base d : Nat) (ds : List Nat) :
    Numeral.value base (d :: ds) = d * base ^ ds.length + Numeral.value base ds := by
  induction ds using List.reverseRecOn with
  | nil => simp [Numeral.value]
  | append_singleton ds last ih =>
    rw [← List.cons_append, Numeral.value_append, ih, Numeral.value_append, List.length_append,
      List.length_singleton, Nat.pow_succ]
    ring

theorem Holds.cons {digits : List Nat} {bytes : Bytes} (rest : Holds digits bytes) (a b c : UInt8) :
    Holds (a.toNat / 4 :: (a.toNat % 4 * 16 + b.toNat / 16) ::
      (b.toNat % 16 * 4 + c.toNat / 64) :: (c.toNat % 64) :: digits) (a :: b :: c :: bytes) := by
  have ha := a.toNat_lt
  have hb := b.toNat_lt
  have hc := c.toNat_lt
  have long := rest.length_eq
  refine ⟨?_, ?_, ?_⟩
  · simp only [List.forall_mem_cons]
    exact ⟨by omega, by omega, by omega, by omega, rest.small⟩
  · simp only [List.length_cons, long]
    omega
  · have shift : 64 ^ digits.length =
        256 ^ bytes.length * 2 ^ (6 * digits.length - 8 * bytes.length) := by
      rw [show (64 : Nat) = 2 ^ 6 from rfl, show (256 : Nat) = 2 ^ 8 from rfl, ← Nat.pow_mul,
        ← Nat.pow_mul, ← Nat.pow_add]
      congr 1
      omega
    have same : 6 * (digits.length + 1 + 1 + 1 + 1) - 8 * (bytes.length + 1 + 1 + 1) =
        6 * digits.length - 8 * bytes.length := by omega
    -- Four digits of six bits are three bytes.
    have group : a.toNat / 4 * 64 ^ 3 + (a.toNat % 4 * 16 + b.toNat / 16) * 64 ^ 2 +
        (b.toNat % 16 * 4 + c.toNat / 64) * 64 + c.toNat % 64 =
        a.toNat * 256 ^ 2 + b.toNat * 256 + c.toNat := by omega
    simp only [value_cons, ofBigEndian_cons, List.length_cons, rest.value_eq, same]
    calc _ = (a.toNat / 4 * 64 ^ 3 + (a.toNat % 4 * 16 + b.toNat / 16) * 64 ^ 2 +
          (b.toNat % 16 * 4 + c.toNat / 64) * 64 + c.toNat % 64) * 64 ^ digits.length +
          ofBigEndian bytes * 2 ^ (6 * digits.length - 8 * bytes.length) := by ring
      _ = _ := by
        rw [group, shift]
        ring

theorem encodeSymbols_eq (bytes : Bytes) :
    ∃ digits, Holds digits bytes ∧ encodeSymbols bytes = digits.map symbol := by
  fun_induction encodeSymbols bytes with
  | case1 => exact ⟨[], ⟨by simp, by simp, by simp [Numeral.value, ofBigEndian]⟩, rfl⟩
  | case2 a =>
    have ha := a.toNat_lt
    refine ⟨[a.toNat / 4, a.toNat % 4 * 16], ⟨?_, by simp, ?_⟩, rfl⟩
    · simp only [List.mem_cons, List.not_mem_nil, or_false, forall_eq_or_imp, forall_eq]
      omega
    · simp [Numeral.value, ofBigEndian]
      omega
  | case3 a b =>
    have ha := a.toNat_lt
    have hb := b.toNat_lt
    refine ⟨[a.toNat / 4, a.toNat % 4 * 16 + b.toNat / 16, b.toNat % 16 * 4],
      ⟨?_, by simp, ?_⟩, rfl⟩
    · simp only [List.mem_cons, List.not_mem_nil, or_false, forall_eq_or_imp, forall_eq]
      omega
    · simp [Numeral.value, ofBigEndian]
      omega
  | case4 a b c rest ih =>
    obtain ⟨digits, holds, symbols⟩ := ih
    exact ⟨_, holds.cons a b c, by rw [symbols]; rfl⟩

theorem encode_spells (bytes : Bytes) :
    ∃ digits, Holds digits bytes ∧ encode bytes = spelling digits := by
  obtain ⟨digits, holds, symbols⟩ := encodeSymbols_eq bytes
  exact ⟨digits, holds, by rw [spelling_eq holds.small, ← symbols]; rfl⟩

theorem decode_eq_ok_iff {text : String} {bytes : Bytes} :
    decode text = .ok bytes ↔ text = encode bytes :=
  ⟨decode_ok, fun written => written ▸ decode_encodeChars bytes⟩

theorem padding_notMem_of_decode {text : String} {bytes : Bytes} (ok : decode text = .ok bytes) :
    '=' ∉ text.toList := by
  obtain ⟨digits, holds, spelled⟩ := encode_spells bytes
  rw [decode_ok ok, spelled, spelling, String.toList_ofList]
  intro mem
  obtain ⟨digit, inside, same⟩ := List.mem_map.1 mem
  exact alphabet_ne_padding digit (holds.small digit inside) same

section Faults

variable {start : Nat} {fault : Fault}

theorem decodeSymbols_error_behind {w x y z : Nat} {more : Bytes}
    (small : w < 64 ∧ x < 64 ∧ y < 64 ∧ z < 64) (nonempty : more ≠ [])
    (behind : decodeSymbols (start + 4) more = .error fault) :
    decodeSymbols start (symbol w :: symbol x :: symbol y :: symbol z :: more) = .error fault := by
  obtain ⟨next, rest, rfl⟩ := List.exists_cons_of_ne_nil nonempty
  rw [decodeSymbols, bind_of_ok (valueAt_symbol small.1 _), bind_of_ok (valueAt_symbol small.2.1 _),
    bind_of_ok (valueAt_symbol small.2.2.1 _), bind_of_ok (valueAt_symbol small.2.2.2 _),
    bind_of_error behind]

theorem scanLast_replicate {index : Nat} (two_le : 2 ≤ index) (offset count : Nat) :
    scanLast start index (some offset) (List.replicate count paddingSign) =
      .ok ([], some offset) := by
  induction count generalizing index with
  | zero => rfl
  | succ count ih =>
    rw [List.replicate_succ, scanLast, if_pos rfl, if_neg (Nat.not_lt.2 two_le), Option.getD_some]
    exact ih (by omega)

theorem scanLast_padding {index : Nat} {values : List Nat} (small : ∀ n ∈ values, n < 64)
    (two_le : 2 ≤ index + values.length) (count : Nat) :
    scanLast start index none (values.map symbol ++ List.replicate (count + 1) paddingSign) =
      .ok (values.map fun n => (symbol n, n), some (start + (index + values.length))) := by
  induction values generalizing index with
  | nil =>
    rw [List.length_nil, Nat.add_zero] at two_le ⊢
    rw [List.map_nil, List.nil_append, List.replicate_succ, scanLast, if_pos rfl,
      if_neg (Nat.not_lt.2 two_le), Option.getD_none]
    exact scanLast_replicate (Nat.le_succ_of_le two_le) _ _
  | cons n values ih =>
    rw [List.forall_mem_cons] at small
    rw [List.length_cons] at two_le ⊢
    have tail := @ih (index + 1) small.2 (by omega)
    rw [List.map_cons, List.cons_append, scanLast, if_neg (symbol_ne_padding n small.1)]
    dsimp only
    rw [bind_of_ok (valueAt_symbol small.1 _), bind_of_ok tail, Nat.add_assoc index 1,
      Nat.add_comm 1]
    rfl

theorem decodeLast_padding {values : List Nat} (small : ∀ n ∈ values, n < 64)
    (two_le : 2 ≤ values.length) (count : Nat) :
    decodeLast start (values.map symbol ++ List.replicate (count + 1) paddingSign) =
      .error .padding := by
  have scanned := @scanLast_padding start 0 values small (by omega) count
  rw [decodeLast, bind_of_ok scanned]
  dsimp only
  rw [if_neg (by simp; omega)]
  rfl

theorem decodeSymbols_padding {bytes : Bytes} (open_ : bytes.length % 3 ≠ 0) :
    decodeSymbols start (encodeSymbols bytes ++
      List.replicate (3 - bytes.length % 3) paddingSign) = .error .padding := by
  fun_induction encodeSymbols bytes generalizing start with
  | case1 => exact absurd rfl open_
  | case2 a =>
    have ha := a.toNat_lt
    exact @decodeLast_padding start [a.toNat / 4, a.toNat % 4 * 16]
      (by simp only [List.mem_cons, List.not_mem_nil, or_false]; omega) (by simp) 1
  | case3 a b =>
    have ha := a.toNat_lt
    have hb := b.toNat_lt
    exact @decodeLast_padding start
      [a.toNat / 4, a.toNat % 4 * 16 + b.toNat / 16, b.toNat % 16 * 4]
      (by simp only [List.mem_cons, List.not_mem_nil, or_false]; omega) (by simp) 0
  | case4 a b c rest ih =>
    have ha := a.toNat_lt
    have hb := b.toNat_lt
    have hc := c.toNat_lt
    have length : (a :: b :: c :: rest).length % 3 = rest.length % 3 := by
      simp only [List.length_cons]
      omega
    rw [length] at open_ ⊢
    refine decodeSymbols_error_behind (by omega) ?_ (ih open_)
    exact List.append_ne_nil_of_right_ne_nil _ (by simp; omega)

theorem decodeLast_trailing {values : List Nat} {last : Nat} (small : ∀ n ∈ values, n < 64)
    (fits : last < 64)
    (used : values.length = 1 ∧ last % 16 ≠ 0 ∨ values.length = 2 ∧ last % 4 ≠ 0) :
    decodeLast start ((values ++ [last]).map symbol) =
      .error (.lastSymbol (symbol last) (start + values.length)) := by
  have scanned := scanLast_symbols start 0 (values ++ [last])
    (List.forall_mem_append.2 ⟨small, by simpa using fits⟩)
  rw [decodeLast, bind_of_ok scanned]
  rcases used with ⟨one, bits⟩ | ⟨two, bits⟩
  · obtain ⟨first, rfl⟩ := List.length_eq_one_iff.1 one
    simp [bits]
    rfl
  · obtain ⟨first, second, rfl⟩ := List.length_eq_two.1 two
    simp [bits]
    rfl

theorem decodeSymbols_trailing (start : Nat) {values : List Nat} {last : Nat}
    (small : ∀ n ∈ values, n < 64)
    (fits : last < 64)
    (used : values.length % 4 = 1 ∧ last % 16 ≠ 0 ∨ values.length % 4 = 2 ∧ last % 4 ≠ 0) :
    decodeSymbols start ((values ++ [last]).map symbol) =
      .error (.lastSymbol (symbol last) (start + values.length)) := by
  match values with
  | [] => simp at used
  | [_] => exact decodeLast_trailing small fits (by simpa using used)
  | [_, _] => exact decodeLast_trailing small fits (by simpa using used)
  | [_, _, _] => simp at used
  | w :: x :: y :: z :: values =>
    simp only [List.forall_mem_cons] at small
    obtain ⟨hw, hx, hy, hz, small⟩ := small
    have rest := decodeSymbols_trailing (start + 4) small fits (by
      simp only [List.length_cons] at used
      omega)
    rw [show start + (w :: x :: y :: z :: values).length = start + 4 + values.length by
      simp only [List.length_cons]
      omega]
    exact decodeSymbols_error_behind ⟨hw, hx, hy, hz⟩ (by simp) rest

end Faults

theorem decode_eq {text : String} (whole : (utf8 text).length % 4 ≠ 1) :
    decode text = decodeSymbols 0 (utf8 text) := by
  rw [decode, stray?, if_neg whole]

theorem decode_padded {bytes : Bytes} (open_ : bytes.length % 3 ≠ 0) :
    decode (encode bytes ++ String.ofList (List.replicate (3 - bytes.length % 3) '=')) =
      .error .padding := by
  have sign : String.utf8EncodeChar '=' = [paddingSign] := by decide
  have read : utf8 (encode bytes ++
      String.ofList (List.replicate (3 - bytes.length % 3) '=')) =
      encodeSymbols bytes ++ List.replicate (3 - bytes.length % 3) paddingSign := by
    rw [← utf8_encode, utf8, utf8, String.toList_append, List.flatMap_append,
      String.toList_ofList, List.flatMap_replicate, sign]
    simp
  obtain ⟨digits, holds, symbols⟩ := encodeSymbols_eq bytes
  have long : (encodeSymbols bytes).length = (4 * bytes.length + 2) / 3 := by
    rw [symbols, List.length_map, holds.length_eq]
  rw [decode_eq, read]
  · exact decodeSymbols_padding open_
  · rw [read, List.length_append, long, List.length_replicate]
    omega

theorem decode_trailing {digits : List Nat} {last : Nat} (small : ∀ digit ∈ digits, digit < 64)
    (fits : last < 64)
    (used : digits.length % 4 = 1 ∧ last % 16 ≠ 0 ∨ digits.length % 4 = 2 ∧ last % 4 ≠ 0) :
    decode (spelling (digits ++ [last])) = .error (.lastSymbol (symbol last) digits.length) := by
  have read := utf8_spelling (List.forall_mem_append.2 ⟨small, by simpa using fits⟩ :
    ∀ digit ∈ digits ++ [last], digit < 64)
  rw [decode_eq, read, decodeSymbols_trailing 0 small fits used, Nat.zero_add]
  rw [read, List.length_map, List.length_append, List.length_singleton]
  omega

end CryptoConditions.Base64
