import CryptoConditions.Key.Generation
import CryptoConditions.Key.Pkcs8
import CryptoConditions.Proofs.Key.Rsa
import CryptoConditions.Proofs.Key.Signing
import CryptoConditions.Proofs.Steps
import CryptoConditions.Proofs.Wire.Exactness

/-! The PKCS#8 form of a key is read back as the key. A key has this form if its factors have no
common divisor. Only its secret exponent could be too long to be written, and it is not in a key
that was read from bytes or generated. -/

namespace CryptoConditions

namespace Modular

theorem euclid_fst (r s : Nat) (t u : Int) : (euclid r s t u).1 = Nat.gcd r s := by
  fun_induction euclid r s t u with
  | case1 => exact (Nat.gcd_zero_right _).symm
  | case2 r s _ _ _ ih => rw [ih, Nat.gcd_comm s, ← Nat.gcd_rec, Nat.gcd_comm]

theorem inverse?_isSome_iff {a m : Nat} : (inverse? a m).isSome ↔ Nat.Coprime a m := by
  have divisor := euclid_fst m (a % m) 0 1
  rw [Nat.gcd_comm, ← Nat.gcd_rec, Nat.gcd_comm] at divisor
  unfold inverse? Nat.Coprime
  split
  next found =>
    rw [found] at divisor
    rw [← divisor]
    split <;> simp_all

theorem inverse?_lt {a m k : Nat} (pos : 0 < m) (found : inverse? a m = some k) : k < m := by
  unfold inverse? at found
  dsimp only at found
  split at found
  · cases found
    exact (Int.toNat_lt' (by omega)).2 (Int.emod_lt_of_pos _ (by omega))
  · cases found

end Modular

namespace Rsa.PrivateKey

theorem ofNumbers_self (key : PrivateKey) :
    ofNumbers key.modulus.val key.exponent key.secret key.p key.q = .ok key := by
  unfold ofNumbers
  rw [key.modulus.ofNat_val]
  dsimp only
  rw [dif_pos key.consistent, dif_pos key.minLength_le]

theorem of_ofNumbers {n e d p q : Nat} {key : PrivateKey} (ok : ofNumbers n e d p q = .ok key) :
    key.modulus.val = n ∧ key.exponent = e ∧ key.secret = d ∧ key.p = p ∧ key.q = q := by
  unfold ofNumbers at ok
  split at ok
  · split at ok <;> cases ok
  · next made =>
    split at ok
    · split at ok
      · cases ok
        exact ⟨Modulus.val_of_ofNat made, rfl, rfl, rfl, rfl⟩
      · cases ok
    · cases ok

theorem p_le (key : PrivateKey) : key.p ≤ key.modulus.val := by
  obtain ⟨_, _, _, _, _, q, product, _⟩ := key.consistent
  exact product ▸ Nat.le_mul_of_pos_right _ (by omega)

theorem q_le (key : PrivateKey) : key.q ≤ key.modulus.val := by
  obtain ⟨_, _, _, _, p, _, product, _⟩ := key.consistent
  exact product ▸ Nat.le_mul_of_pos_left _ (by omega)

theorem byteWidth_le_of_le (key : PrivateKey) {n : Nat} (le : n ≤ key.modulus.val) :
    byteWidth n ≤ maxLength :=
  Nat.le_trans (byteWidth_mono le) key.modulus.length_le

theorem secret_le_of_generate {bits : Nat} {seed : Bytes} {key : PrivateKey}
    (ok : generate bits seed = .ok key) : key.secret ≤ key.modulus.val := by
  unfold generate at ok
  split at ok
  · cases ok
  · dsimp only at ok
    split at ok
    · cases ok
    · next p q d found =>
      obtain ⟨value, _, secret, rfl, rfl⟩ := of_ofNumbers ok
      obtain ⟨_, _, _, _, p_large, q_large, _⟩ := key.consistent
      simp only [Option.bind_eq_bind, Option.bind_eq_some_iff] at found
      obtain ⟨_, _, _, _, _, inverse, found⟩ := found
      split at found
      · cases found
        have pos : 0 < (key.p - 1) * (key.q - 1) := Nat.mul_pos (by omega) (by omega)
        have less := Modular.inverse?_lt pos inverse
        have factors : (key.p - 1) * (key.q - 1) ≤ key.p * key.q :=
          Nat.mul_le_mul (Nat.sub_le _ _) (Nat.sub_le _ _)
        omega
      · cases found

theorem exponent_of_generate {bits : Nat} {seed : Bytes} {key : PrivateKey}
    (ok : generate bits seed = .ok key) : key.exponent = publicExponent := by
  unfold generate at ok
  split at ok
  · cases ok
  · dsimp only at ok
    split at ok
    · cases ok
    · exact (of_ofNumbers ok).2.1

end Rsa.PrivateKey

namespace Pkcs8

section Whole

variable {α : Type} {read : Read α} {bytes : Bytes} {a : α}

theorem all?_of_some (found : read bytes = some (a, [])) : all? read bytes = some a := by
  rw [all?, found]

theorem of_all? (found : all? read bytes = some a) : read bytes = some (a, []) := by
  unfold all? at found
  split at found
  · next known =>
    cases found
    exact known
  · cases found

end Whole

theorem element_length (tag : Tag) (content : Bytes) :
    (element tag content).length = 1 + Wire.octetsLength content.length := by
  rw [element, List.length_cons, Wire.octets_length, Nat.add_comm]

theorem element_length_le (tag : Tag) (content : Bytes) (small : content.length < 2 ^ 64) :
    (element tag content).length ≤ content.length + 10 := by
  have width : byteWidth content.length ≤ 8 := byteWidth_le (by omega) (by decide)
  rw [element_length]
  unfold Wire.octetsLength Wire.lengthWidth
  split <;> omega

theorem readElement_element (tag : Tag) (content : Bytes) (small : content.length < 2 ^ 64)
    (rest : Bytes) : readElement tag (element tag content ++ rest) = some (content, rest) := by
  rw [element, List.cons_append, readElement, if_pos rfl, Wire.Reader.octets_octets small]

theorem all?_readElement (tag : Tag) (content : Bytes) (small : content.length < 2 ^ 64) :
    all? (readElement tag) (element tag content) = some content := by
  have read := readElement_element tag content small []
  rw [List.append_nil] at read
  exact all?_of_some read

theorem length_of_readElement {tag : Tag} {bytes content rest : Bytes}
    (found : readElement tag bytes = some (content, rest)) :
    content.length + rest.length < bytes.length := by
  unfold readElement at found
  split at found
  · cases found
  · split at found
    · split at found
      · next read =>
        cases found
        obtain ⟨rfl, _⟩ := Wire.Reader.octets_ok read
        rw [List.length_cons, List.length_append, Wire.octets_length, Wire.octetsLength]
        omega
      · cases found
    · cases found

/-- The octets of a number, with a zero in front where the first bit would tell a negative one. -/
def unsignedContent (n : Nat) : Bytes :=
  match minimalBigEndian n with
  | [] => [0]
  | byte :: rest => if byte < 128 then byte :: rest else 0 :: byte :: rest

theorem unsigned_eq (n : Nat) : unsigned n = element .integer (unsignedContent n) := rfl

theorem unsignedContent_length_le (n : Nat) : (unsignedContent n).length ≤ byteWidth n + 1 := by
  have length := minimalBigEndian_length n
  unfold unsignedContent
  split
  · exact Nat.le_add_left 1 _
  · next shape =>
    rw [shape] at length
    split
    · omega
    · rw [List.length_cons, length]

theorem unsignedValue?_unsignedContent (n : Nat) : unsignedValue? (unsignedContent n) = some n := by
  have value := ofBigEndian_minimalBigEndian n
  have leading := @head?_minimalBigEndian n
  unfold unsignedContent
  split
  · next empty => exact absurd empty (minimalBigEndian_ne_nil n)
  · next byte rest shape =>
    rw [shape] at value leading
    split
    · next positive =>
      cases rest with
      | nil =>
        rw [unsignedValue?, if_pos positive, ← value]
        simp [ofBigEndian]
      | cons second rest =>
        -- Only zero has a shortest form that starts with zero, and it is a single byte.
        have nonzero : byte ≠ 0 := by
          rintro rfl
          have zero := leading rfl
          subst zero
          have length := congrArg List.length shape
          rw [minimalBigEndian_length] at length
          simp [byteWidth] at length
        rw [unsignedValue?, if_pos ⟨positive, Or.inl nonzero⟩, value]
    · next negative =>
      have high : 128 ≤ byte := UInt8.not_lt.1 negative
      rw [unsignedValue?, if_pos ⟨by decide, Or.inr high⟩, ofBigEndian_cons, value]
      simp

theorem byteWidth_of_unsignedValue? {content : Bytes} {n : Nat}
    (found : unsignedValue? content = some n) : byteWidth n ≤ content.length := by
  have bound := ofBigEndian_lt content
  unfold unsignedValue? at found
  split at found
  · cases found
  · next byte =>
    split at found
    · cases found
      exact byteWidth_le byte.toNat_lt Nat.one_pos
    · cases found
  · split at found
    · cases found
      exact byteWidth_le bound (Nat.succ_pos _)
    · cases found

theorem readUnsigned_unsigned {n : Nat} (small : byteWidth n + 1 < 2 ^ 64) (rest : Bytes) :
    readUnsigned (unsigned n ++ rest) = some (n, rest) := by
  have length := unsignedContent_length_le n
  rw [readUnsigned, unsigned_eq, run_bind (readElement_element _ _ (by omega) rest),
    unsignedValue?_unsignedContent]
  rfl

theorem length_of_readUnsigned {bytes rest : Bytes} {n : Nat}
    (found : readUnsigned bytes = some (n, rest)) : byteWidth n + rest.length < bytes.length := by
  obtain ⟨content, mid, element, value⟩ := run_bind_eq_some.1 found
  have length := length_of_readElement element
  cases known : unsignedValue? content with
  | none =>
    rw [known] at value
    cases value
  | some m =>
    rw [known] at value
    cases value
    have width := byteWidth_of_unsignedValue? known
    omega

theorem length_unsigned_le {n : Nat} (small : byteWidth n + 11 < 2 ^ 64) :
    (unsigned n).length ≤ byteWidth n + 11 := by
  have content := unsignedContent_length_le n
  have length := element_length_le .integer (unsignedContent n) (by omega)
  rw [unsigned_eq]
  omega

def room (numbers : List Nat) : Nat :=
  (numbers.map fun n => byteWidth n + 11).sum

theorem room_cons (n : Nat) (numbers : List Nat) :
    room (n :: numbers) = byteWidth n + 11 + room numbers := by
  rw [room, List.map_cons, List.sum_cons, ← room]

theorem length_unsigneds_le (numbers : List Nat) (small : room numbers < 2 ^ 64) :
    (numbers.flatMap unsigned).length ≤ room numbers := by
  induction numbers with
  | nil => exact Nat.le_refl 0
  | cons n numbers ih =>
    rw [room_cons] at small ⊢
    have first := length_unsigned_le (n := n) (by omega)
    have others := ih (by omega)
    rw [List.flatMap_cons, List.length_append]
    omega

theorem readUnsigneds_unsigned {numbers : List Nat} (small : room numbers < 2 ^ 64)
    (rest : Bytes) :
    readUnsigneds numbers.length (numbers.flatMap unsigned ++ rest) = some (numbers, rest) := by
  induction numbers with
  | nil => rfl
  | cons n numbers ih =>
    rw [room_cons] at small
    rw [List.length_cons, readUnsigneds, List.flatMap_cons, List.append_assoc,
      run_bind (readUnsigned_unsigned (by omega) _), run_bind (ih (by omega))]
    rfl

theorem length_of_readUnsigneds {count : Nat} {bytes rest : Bytes} {numbers : List Nat}
    (found : readUnsigneds count bytes = some (numbers, rest)) :
    ∀ n ∈ numbers, byteWidth n ≤ bytes.length := by
  induction count generalizing bytes numbers with
  | zero =>
    cases found
    exact List.forall_mem_nil _
  | succ count ih =>
    obtain ⟨n, mid, first, found⟩ := run_bind_eq_some.1 found
    obtain ⟨others, left, later, found⟩ := run_bind_eq_some.1 found
    cases found
    have length := length_of_readUnsigned first
    refine List.forall_mem_cons.2 ⟨by omega, fun m mem => ?_⟩
    have width := ih later m mem
    omega

theorem length_of_readKey {bytes content rest : Bytes}
    (found : readKey bytes = some (content, rest)) : content.length ≤ bytes.length := by
  obtain ⟨version, afterVersion, first, found⟩ := run_bind_eq_some.1 found
  obtain ⟨name, afterName, second, found⟩ := run_bind_eq_some.1 found
  obtain ⟨_, found⟩ := run_guard_bind_eq_some.1 found
  obtain ⟨key, afterKey, third, found⟩ := run_bind_eq_some.1 found
  have same : content = key := by
    simp only [run_bind_eq_some] at found
    obtain ⟨_, _, _, _, _, _, _, _, _, _, _, _, _, _, _, _, _, _, found⟩ := found
    cases found
    rfl
  rw [same]
  have versionLength := length_of_readUnsigned first
  have nameLength := length_of_readElement second
  have keyLength := length_of_readElement third
  omega

theorem readKey_written (content : Bytes) (small : content.length < 2 ^ 64) :
    readKey (unsigned 0 ++ algorithm ++ element .octetString content) = some (content, []) := by
  have version := readUnsigned_unsigned (n := 0) (by decide)
    (algorithm ++ element .octetString content)
  obtain ⟨inner, known, short⟩ : ∃ inner, element .sequence inner = algorithm ∧
    inner.length < 2 ^ 64 := ⟨_, rfl, by decide⟩
  have named := readElement_element .sequence inner short (element .octetString content)
  rw [known] at named
  have key := readElement_element .octetString content small []
  rw [List.append_nil] at key
  rw [List.append_assoc, readKey, run_bind version, run_bind named,
    run_bind (run_guard known), run_bind key]
  rfl

def numbersOf (key : Rsa.PrivateKey) (coefficient : Nat) : List Nat :=
  [0, key.modulus.val, key.exponent, key.secret, key.p, key.q, key.secret % (key.p - 1),
    key.secret % (key.q - 1), coefficient]

theorem encode_eq_ok {key : Rsa.PrivateKey} {bytes : Bytes} (ok : encode key = .ok bytes) :
    ∃ coefficient, coefficient < key.p ∧ bytes = element .sequence (unsigned 0 ++ algorithm ++
      element .octetString (element .sequence ((numbersOf key coefficient).flatMap unsigned))) := by
  obtain ⟨_, _, _, _, p_large, _⟩ := key.consistent
  unfold encode at ok
  split at ok
  · cases ok
  · next coefficient found =>
    cases ok
    exact ⟨coefficient, Modular.inverse?_lt (by omega) found, rfl⟩

theorem exists_encode_iff {key : Rsa.PrivateKey} :
    (∃ bytes, encode key = .ok bytes) ↔ Nat.Coprime key.p key.q := by
  rw [Nat.coprime_comm, ← Modular.inverse?_isSome_iff]
  unfold encode
  split
  · next missing => simp [missing]
  · next found => simp [found]

theorem room_numbersOf_le {key : Rsa.PrivateKey} {coefficient : Nat} (small : coefficient < key.p) :
    room (numbersOf key coefficient) ≤ byteWidth key.secret + 4195 := by
  have p_le := key.p_le
  have q_le := key.q_le
  obtain ⟨_, _, _, exponent, p_large, q_large, _⟩ := key.consistent
  have first := Nat.mod_lt key.secret (show 0 < key.p - 1 by omega)
  have second := Nat.mod_lt key.secret (show 0 < key.q - 1 by omega)
  have width {n : Nat} (le : n ≤ key.modulus.val) : byteWidth n ≤ 512 := key.byteWidth_le_of_le le
  have zero := width (Nat.zero_le _)
  have modulus := width le_rfl
  have exponent := width exponent.le
  have p := width p_le
  have q := width q_le
  have dp : byteWidth (key.secret % (key.p - 1)) ≤ 512 := width (by omega)
  have dq : byteWidth (key.secret % (key.q - 1)) ≤ 512 := width (by omega)
  have inverse : byteWidth coefficient ≤ 512 := width (by omega)
  simp only [numbersOf, room_cons]
  simp only [room, List.map_nil, List.sum_nil]
  omega

theorem numbers?_written (key : Rsa.PrivateKey) (coefficient : Nat)
    (small : room (numbersOf key coefficient) < 2 ^ 64) :
    numbers? (element .sequence ((numbersOf key coefficient).flatMap unsigned)) =
      some ⟨key.modulus.val, key.exponent, key.secret, key.p, key.q⟩ := by
  have numbers := readUnsigneds_unsigned small []
  have length := length_unsigneds_le _ small
  have whole := all?_readElement .sequence _ (Nat.lt_of_le_of_lt length small)
  have counted : (numbersOf key coefficient).length = 9 := rfl
  rw [List.append_nil, counted] at numbers
  rw [numbers?, whole, Option.bind_eq_bind, Option.bind_some, all?_of_some numbers]
  rfl

theorem decode_of_encode {key : Rsa.PrivateKey} {bytes : Bytes}
    (short : byteWidth key.secret < 2 ^ 63) (ok : encode key = .ok bytes) :
    decode bytes = .ok key := by
  obtain ⟨coefficient, small, rfl⟩ := encode_eq_ok ok
  have fits := room_numbersOf_le small
  have numbers := numbers?_written key coefficient (by omega)
  have length := length_unsigneds_le (numbersOf key coefficient) (by omega)
  generalize (numbersOf key coefficient).flatMap unsigned = content at numbers length
  have innerLength := element_length_le .sequence content (by omega)
  generalize element .sequence content = inner at numbers innerLength
  have keyLength := element_length_le .octetString inner (by omega)
  have heading : (unsigned 0 ++ algorithm).length = 18 := rfl
  have outer : (unsigned 0 ++ algorithm ++ element .octetString inner).length < 2 ^ 64 := by
    rw [List.length_append, heading]
    omega
  have whole := all?_readElement .sequence _ outer
  have read := all?_of_some (readKey_written inner (by omega))
  have numbered : (do numbers? (← all? readKey (← all? (readElement .sequence)
      (element .sequence (unsigned 0 ++ algorithm ++ element .octetString inner))))) =
      some ⟨key.modulus.val, key.exponent, key.secret, key.p, key.q⟩ := by
    rw [whole, Option.bind_eq_bind, Option.bind_some, read, Option.bind_some, numbers]
  rw [decode, numbered]
  exact key.ofNumbers_self

theorem secret_of_numbers? {bytes : Bytes} {numbers : Numbers}
    (found : numbers? bytes = some numbers) : byteWidth numbers.d ≤ bytes.length := by
  simp only [numbers?, Option.bind_eq_bind, Option.bind_eq_some_iff] at found
  obtain ⟨content, whole, list, read, found⟩ := found
  have outer := length_of_readElement (of_all? whole)
  have widths := length_of_readUnsigneds (of_all? read)
  split at found
  · next n e d p q _ _ _ =>
    cases found
    have width : byteWidth d ≤ content.length := widths d (by simp)
    dsimp only
    omega
  · cases found

theorem secret_of_decode {bytes : Bytes} {key : Rsa.PrivateKey} (ok : decode bytes = .ok key) :
    byteWidth key.secret ≤ bytes.length := by
  unfold decode at ok
  split at ok
  · cases ok
  · next n e d p q found =>
    obtain ⟨_, _, rfl, _, _⟩ := Rsa.PrivateKey.of_ofNumbers ok
    simp only [Option.bind_eq_bind, Option.bind_eq_some_iff] at found
    obtain ⟨content, whole, octets, read, found⟩ := found
    have outer := length_of_readElement (of_all? whole)
    have inner := length_of_readKey (of_all? read)
    have width : byteWidth key.secret ≤ octets.length := secret_of_numbers? found
    omega

end Pkcs8

end CryptoConditions
