import CryptoConditions.Hash.Sha512
import CryptoConditions.Proofs.Bytes

/-! SHA-512 by arithmetic. The words of a state are numbers that the rounds add modulo 2⁶⁴, and the
words of a schedule come one by one, each from the sixteen before it. The digest is the same, and
takes far fewer steps to evaluate. -/

namespace CryptoConditions.Sha512

structure Numbers where
  a : Nat
  b : Nat
  c : Nat
  d : Nat
  e : Nat
  f : Nat
  g : Nat
  h : Nat

namespace Numbers

def rotate (word count : Nat) : Nat :=
  (word >>> count) ||| (word <<< (64 - count)) % 2 ^ 64

def smallSigma0 (x : Nat) : Nat := rotate x 1 ^^^ rotate x 8 ^^^ (x >>> 7)

def smallSigma1 (x : Nat) : Nat := rotate x 19 ^^^ rotate x 61 ^^^ (x >>> 6)

def bigSigma0 (x : Nat) : Nat := rotate x 28 ^^^ rotate x 34 ^^^ rotate x 39

def bigSigma1 (x : Nat) : Nat := rotate x 14 ^^^ rotate x 18 ^^^ rotate x 41

def round (s : Numbers) (constant word : Nat) : Numbers :=
  let choice := (s.e &&& s.f) ^^^ ((UInt64.size - 1 - s.e) &&& s.g)
  let majority := (s.a &&& s.b) ^^^ (s.a &&& s.c) ^^^ (s.b &&& s.c)
  let t := s.h + bigSigma1 s.e + choice + constant + word
  ⟨(t + bigSigma0 s.a + majority) % 2 ^ 64, s.a, s.b, s.c, (s.d + t) % 2 ^ 64, s.e, s.f, s.g⟩

def add (s t : Numbers) : Numbers :=
  ⟨(s.a + t.a) % 2 ^ 64, (s.b + t.b) % 2 ^ 64, (s.c + t.c) % 2 ^ 64, (s.d + t.d) % 2 ^ 64,
    (s.e + t.e) % 2 ^ 64, (s.f + t.f) % 2 ^ 64, (s.g + t.g) % 2 ^ 64, (s.h + t.h) % 2 ^ 64⟩

def words : (count : Nat) → Bytes → List Nat
  | 0, _ => []
  | count + 1, bytes => ofBigEndian (bytes.take 8) :: words count (bytes.drop 8)

def next (window : List Nat) : Nat :=
  (window.getD 0 0 + smallSigma0 (window.getD 1 0) + window.getD 9 0 +
    smallSigma1 (window.getD 14 0)) % 2 ^ 64

def spread : (count : Nat) → List Nat → List Nat
  | 0, _ => []
  | count + 1, window => window.headD 0 :: spread count (window.tail ++ [next window])

def compress (s : Numbers) (block : Bytes) : Numbers :=
  s.add (((roundConstants.map UInt64.toNat).zip (spread 80 (words 16 block))).foldl
    (fun t kw => round t kw.1 kw.2) s)

def absorb : (blocks : Nat) → Numbers → Bytes → Numbers
  | 0, s, _ => s
  | blocks + 1, s, bytes => absorb blocks (compress s (bytes.take 128)) (bytes.drop 128)

def digest (s : Numbers) : Bytes :=
  [s.a, s.b, s.c, s.d, s.e, s.f, s.g, s.h].flatMap (bigEndian 8)

end Numbers

def State.numbers (s : State) : Numbers :=
  ⟨s.a.toNat, s.b.toNat, s.c.toNat, s.d.toNat, s.e.toNat, s.f.toNat, s.g.toNat, s.h.toNat⟩

section Words

theorem toNat_rotate {word count : UInt64} (positive : 0 < count.toNat)
    (small : count.toNat < 64) :
    (rotate word count).toNat = Numbers.rotate word.toNat count.toNat := by
  have whole : (64 : UInt64).toNat = 64 := rfl
  have rest : (64 - count).toNat = 64 - count.toNat :=
    UInt64.toNat_sub_of_le _ _ (UInt64.le_iff_toNat_le.2 (Nat.le_of_lt small))
  rw [rotate, Numbers.rotate, UInt64.toNat_or, UInt64.toNat_shiftRight, UInt64.toNat_shiftLeft,
    rest, Nat.mod_eq_of_lt small, Nat.mod_eq_of_lt (show 64 - count.toNat < 64 by omega)]

theorem toNat_smallSigma0 (x : UInt64) :
    (smallSigma0 x).toNat = Numbers.smallSigma0 x.toNat := by
  simp (disch := decide) only [smallSigma0, UInt64.toNat_xor, toNat_rotate]
  rfl

theorem toNat_smallSigma1 (x : UInt64) :
    (smallSigma1 x).toNat = Numbers.smallSigma1 x.toNat := by
  simp (disch := decide) only [smallSigma1, UInt64.toNat_xor, toNat_rotate]
  rfl

theorem toNat_bigSigma0 (x : UInt64) : (bigSigma0 x).toNat = Numbers.bigSigma0 x.toNat := by
  simp (disch := decide) only [bigSigma0, UInt64.toNat_xor, toNat_rotate]
  rfl

theorem toNat_bigSigma1 (x : UInt64) : (bigSigma1 x).toNat = Numbers.bigSigma1 x.toNat := by
  simp (disch := decide) only [bigSigma1, UInt64.toNat_xor, toNat_rotate]
  rfl

theorem numbers_round (s : State) (constant word : UInt64) :
    (round s constant word).numbers = s.numbers.round constant.toNat word.toNat := by
  simp only [round, State.numbers, Numbers.round, UInt64.toNat_add, UInt64.toNat_xor,
    UInt64.toNat_and, UInt64.toNat_not, toNat_bigSigma0, toNat_bigSigma1, Nat.mod_add_mod,
    Nat.add_mod_mod]

theorem numbers_add (s t : State) : (s.add t).numbers = s.numbers.add t.numbers := by
  simp only [State.add, State.numbers, Numbers.add, UInt64.toNat_add]

theorem map_words (count : Nat) (bytes : Bytes) :
    (words count bytes).map UInt64.toNat = Numbers.words count bytes := by
  induction count generalizing bytes with
  | zero => rfl
  | succ count ih =>
    have few : (bytes.take 8).length ≤ 8 := List.length_take_le ..
    have small : ofBigEndian (bytes.take 8) < 2 ^ 64 :=
      Nat.lt_of_lt_of_le (ofBigEndian_lt _) (Nat.pow_le_pow_right (by decide) few)
    rw [words, Numbers.words, List.map_cons, ih, UInt64.toNat_ofNat_of_lt' small]

end Words

section Schedule

open Numbers

theorem spread_of_le {count : Nat} {window : List Nat} (enough : count ≤ window.length) :
    spread count window = window.take count := by
  induction count generalizing window with
  | zero => rfl
  | succ count ih =>
    cases window with
    | nil => cases enough
    | cons word rest =>
      have fits : count ≤ rest.length := Nat.le_of_succ_le_succ enough
      have longer : count ≤ (rest ++ [next (word :: rest)]).length :=
        Nat.le_trans fits (by simp)
      rw [spread, List.tail_cons, ih longer, List.take_append_of_le_length fits]
      rfl

def extend (w : Array UInt64) (i : Nat) : Array UInt64 :=
  w.push (w.getD i 0 + smallSigma0 (w.getD (i + 1) 0) + w.getD (i + 9) 0 +
    smallSigma1 (w.getD (i + 14) 0))

theorem map_extend (w : Array UInt64) (i : Nat) : (extend w i).toList.map UInt64.toNat =
    w.toList.map UInt64.toNat ++ [next ((w.toList.map UInt64.toNat).drop i)] := by
  have word (k : Nat) :
      ((w.toList.map UInt64.toNat).drop i).getD k 0 = (w.getD (i + k) 0).toNat := by
    rw [List.getD_eq_getElem?_getD, List.getElem?_drop, List.getElem?_map,
      Array.getD_eq_getD_getElem?, Array.getElem?_toList]
    cases w[i + k]? <;> rfl
  simp only [extend, next, word, Array.toList_push, List.map_append, List.map_cons, List.map_nil,
    UInt64.toNat_add, toNat_smallSigma0, toNat_smallSigma1, Nat.mod_add_mod, Nat.add_zero]

theorem map_foldl_extend (count : Nat) {i : Nat} {w : Array UInt64} (long : w.size = i + 16) :
    ((List.range' i count).foldl extend w).toList.map UInt64.toNat =
      (w.toList.map UInt64.toNat).take i ++
        spread (count + 16) ((w.toList.map UInt64.toNat).drop i) := by
  have length : (w.toList.map UInt64.toNat).length = i + 16 := by
    rw [List.length_map, Array.length_toList, long]
  induction count generalizing i w with
  | zero =>
    have last : ((w.toList.map UInt64.toNat).drop i).length = 16 := by
      rw [List.length_drop, length, Nat.add_sub_cancel_left]
    rw [spread_of_le (Nat.le_of_eq last.symm), List.take_of_length_le (Nat.le_of_eq last),
      List.take_append_drop, List.range'_zero, List.foldl_nil]
  | succ count ih =>
    have longer : (extend w i).size = i + 1 + 16 := by
      rw [extend, Array.size_push, long]
    have length' : ((extend w i).toList.map UInt64.toNat).length = i + 1 + 16 := by
      rw [List.length_map, Array.length_toList, longer]
    rw [List.range'_succ, List.foldl_cons, ih longer length', map_extend]
    generalize w.toList.map UInt64.toNat = words at length ⊢
    have inside : i < words.length := by omega
    rw [List.take_append_of_le_length inside, List.drop_append_of_le_length inside,
      List.take_succ_eq_append_getElem inside, List.append_assoc, ← List.tail_drop,
      List.singleton_append]
    refine congrArg _ ?_
    rw [List.drop_eq_getElem_cons inside]
    rfl

theorem map_schedule {block : List UInt64} (long : block.length = 16) :
    (schedule block).toList.map UInt64.toNat = spread 80 (block.map UInt64.toNat) := by
  have whole : schedule block = (List.range' 0 64).foldl extend block.toArray := by
    rw [schedule, List.range_eq_range']
    rfl
  rw [whole, map_foldl_extend 64 (by rw [List.size_toArray, long])]
  rfl

end Schedule

theorem words_length (count : Nat) (bytes : Bytes) : (words count bytes).length = count := by
  induction count generalizing bytes with
  | zero => rfl
  | succ count ih => rw [words, List.length_cons, ih]

theorem numbers_compress (s : State) (block : Bytes) :
    (compress s block).numbers = s.numbers.compress block := by
  have rounds (kws : List (UInt64 × UInt64)) (s : State) :
      (kws.foldl (fun t kw => round t kw.1 kw.2) s).numbers =
        (kws.map (Prod.map UInt64.toNat UInt64.toNat)).foldl
          (fun t kw => t.round kw.1 kw.2) s.numbers := by
    induction kws generalizing s with
    | nil => rfl
    | cons kw kws ih => rw [List.foldl_cons, ih, numbers_round]; rfl
  rw [compress, numbers_add, rounds, ← List.zip_map, map_schedule (words_length 16 block),
    map_words]
  rfl

theorem numbers_absorb (blocks : Nat) (s : State) (bytes : Bytes) :
    (absorb blocks s bytes).numbers = Numbers.absorb blocks s.numbers bytes := by
  induction blocks generalizing s bytes with
  | zero => rfl
  | succ blocks ih => rw [absorb, ih, numbers_compress]; rfl

theorem bytes_sha512 (message : Bytes) : (sha512 message).bytes =
    (Numbers.absorb ((pad message).length / 128) State.initial.numbers (pad message)).digest := by
  rw [← numbers_absorb]
  rfl

end CryptoConditions.Sha512
