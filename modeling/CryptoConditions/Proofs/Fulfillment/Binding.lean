import CryptoConditions.Fulfillment.Validation
import CryptoConditions.Proofs.Condition.Split
import CryptoConditions.Proofs.Fulfillment.Decoded

/-! A condition binds the policy behind it: two fulfillments with one condition
agree on all that the condition was computed from, or the bytes that their
hashes were taken of are a collision. -/

namespace CryptoConditions

/-- What a condition is computed from. -/
inductive Policy where
  | preimage (bytes : Bytes)
  | prefixed (lead : Bytes) (inner : Condition)
  | threshold (needed : UInt32) (parts : List (Weight × Condition))
  | rsa (modulus : Rsa.Modulus)
  | ed25519 (key : Octets 32)
  | timeout (expiry : UInt64)
  | unknown (condition : Condition)
deriving DecidableEq

def Collision (a b : Bytes) : Prop :=
  a ≠ b ∧ sha256 a = sha256 b

namespace Fulfillment

def policy : Fulfillment → Policy
  | preimage _ bytes => .preimage bytes
  | prefixed _ lead sub _ => .prefixed lead sub.condition
  | ed25519 _ key _ => .ed25519 key.octets
  | rsa _ key _ _ => .rsa key.modulus
  | threshold _ needed subs _ _ => .threshold needed (subs.map fun sub => sub.commitment.share)
  | timeout _ expiry => .timeout expiry
  | withheld commitment => .unknown commitment.condition

/-- The bytes that the hash in the condition is taken of; the key of Ed25519 stands there itself. -/
def hashed? : Fulfillment → Option Bytes
  | preimage _ bytes => some bytes
  | prefixed _ lead sub _ => some (lead ++ sub.condition.binary)
  | rsa _ key _ _ => some key.modulus.bytes
  | threshold _ needed subs _ _ => some (Threshold.fingerprint needed (subs.map commitment))
  | timeout _ expiry => some (expiryBytes expiry)
  | ed25519 .. | withheld _ => none

def isWithheld : Fulfillment → Bool
  | withheld _ => true
  | _ => false

theorem hashed?_eq_none {f : Fulfillment} (known : f.isWithheld = false) :
    f.hashed? = none ↔ f.type = .ed25519 := by
  cases f with
  | withheld => cases known
  | _ => simp [hashed?, type]

theorem WellFormed.hash_eq {f : Fulfillment} (h : f.WellFormed) {bytes : Bytes}
    (hashed : f.hashed? = some bytes) : f.condition.hash = sha256 bytes := by
  cases h with
  | prefixed _ made =>
    cases hashed
    obtain ⟨_, same⟩ := ofPrefix_eq_ok.1 made
    cases same
    rfl
  | threshold _ assembled =>
    cases hashed
    exact (Threshold.condition_eq_ok assembled.condition_eq).2.2
  | ed25519 => cases hashed
  | withheld => cases hashed
  | _ =>
    cases hashed
    rfl

theorem expiryBytes_injective {a b : UInt64} (same : expiryBytes a = expiryBytes b) : a = b := by
  have whole : expiryBytes a ++ [] = expiryBytes b ++ [] := by rw [same]
  exact UInt64.toNat_inj.1 (Wire.uint_append_inj a.toNat_lt b.toNat_lt whole).1

theorem prefixed_policy {lead front : Bytes} {sub part : Fulfillment} {c d : Condition}
    (wellFormed : sub.WellFormed) (wellFormed' : part.WellFormed)
    (made : ofPrefix lead sub = .ok (.prefixed Weight.one lead sub c))
    (made' : ofPrefix front part = .ok (.prefixed Weight.one front part d)) (same : c = d)
    (bytes : lead ++ sub.condition.binary = front ++ part.condition.binary) :
    lead = front ∧ sub.condition = part.condition := by
  obtain ⟨small, form⟩ := ofPrefix_eq_ok.1 made
  obtain ⟨small', form'⟩ := ofPrefix_eq_ok.1 made'
  simp only [prefixed.injEq, true_and] at form form'
  subst form form'
  have sizes := congrArg (fun c => c.size.toNat) same
  simp only [UInt64.toNat_ofNat', Nat.mod_eq_of_lt small, Nat.mod_eq_of_lt small'] at sizes
  exact Condition.split wellFormed.condition.1 wellFormed'.condition.1 (by omega) bytes

theorem threshold_policy {needed other : UInt32} {subs parts : List Fulfillment}
    {selection selection' : Selection} {c d : Condition}
    (wellFormed : ∀ sub ∈ subs, sub.WellFormed) (wellFormed' : ∀ sub ∈ parts, sub.WellFormed)
    (assembled : Assembled needed subs selection c)
    (assembled' : Assembled other parts selection' d)
    (bytes : Threshold.fingerprint needed (subs.map commitment) =
      Threshold.fingerprint other (parts.map commitment)) :
    needed = other ∧ (subs.map fun sub => sub.commitment.share) =
      parts.map fun sub => sub.commitment.share := by
  have few := assembled.few
  have few' := assembled'.few
  obtain ⟨numbers, shares⟩ := Threshold.fingerprint_inj (by rw [List.length_map]; omega)
    (by rw [List.length_map]; omega)
    (by
      rintro _ mem
      obtain ⟨sub, inside, rfl⟩ := List.mem_map.1 mem
      exact (wellFormed sub inside).condition.1)
    (by
      rintro _ mem
      obtain ⟨sub, inside, rfl⟩ := List.mem_map.1 mem
      exact (wellFormed' sub inside).condition.1) bytes
  rw [List.map_map, List.map_map] at shares
  exact ⟨numbers, shares⟩

theorem WellFormed.policy_eq {f g : Fulfillment} (hf : f.WellFormed) (hg : g.WellFormed)
    (known : f.isWithheld = false) (known' : g.isWithheld = false)
    (same : f.condition = g.condition) (bytes : f.hashed? = g.hashed?) : f.policy = g.policy := by
  have type : f.type = g.type := by rw [← hf.condition.2, ← hg.condition.2, same]
  -- The types agree, so both are of one constructor; what is withheld has nothing to hash.
  cases hf with
  | preimage =>
    cases hg with
    | preimage =>
      cases bytes
      rfl
    | withheld => cases known'
    | _ => cases type
  | prefixed part made =>
    cases hg with
    | prefixed part' made' =>
      obtain ⟨leads, inner⟩ := prefixed_policy part part' made made' same (Option.some.inj bytes)
      simp only [policy, leads, inner]
    | withheld => cases known'
    | _ => cases type
  | ed25519 =>
    cases hg with
    | ed25519 =>
      have keys := congrArg Condition.hash same
      exact congrArg Policy.ed25519 keys
    | withheld => cases known'
    | _ => cases type
  | rsa =>
    cases hg with
    | rsa =>
      exact congrArg Policy.rsa (Rsa.Modulus.bytes_injective (Option.some.inj bytes))
    | withheld => cases known'
    | _ => cases type
  | threshold parts assembled =>
    cases hg with
    | threshold parts' assembled' =>
      obtain ⟨numbers, shares⟩ :=
        threshold_policy parts parts' assembled assembled' (Option.some.inj bytes)
      simp only [policy, numbers, shares]
    | withheld => cases known'
    | _ => cases type
  | timeout =>
    cases hg with
    | timeout =>
      exact congrArg Policy.timeout (expiryBytes_injective (Option.some.inj bytes))
    | withheld => cases known'
    | _ => cases type
  | withheld => cases known

/-- Where the hashed bytes of two fulfillments collide. -/
def Clash (f g : Fulfillment) : Prop :=
  ∃ a b, f.hashed? = some a ∧ g.hashed? = some b ∧ Collision a b

theorem WellFormed.policy_eq_or_clash {f g : Fulfillment} (hf : f.WellFormed) (hg : g.WellFormed)
    (known : f.isWithheld = false) (known' : g.isWithheld = false)
    (same : f.condition = g.condition) : f.policy = g.policy ∨ f.Clash g := by
  by_cases bytes : f.hashed? = g.hashed?
  · exact Or.inl (hf.policy_eq hg known known' same bytes)
  · have type : f.type = g.type := by rw [← hf.condition.2, ← hg.condition.2, same]
    right
    cases left : f.hashed? with
    | none =>
      have none : g.hashed? = none := by
        rw [hashed?_eq_none known', ← type, ← hashed?_eq_none known, left]
      exact absurd (left.trans none.symm) bytes
    | some a =>
      cases right : g.hashed? with
      | none =>
        rw [hashed?_eq_none known', ← type, ← hashed?_eq_none known, left] at right
        cases right
      | some b =>
        refine ⟨a, b, left, right, ?_, ?_⟩
        · intro eq
          exact bytes (by rw [left, right, eq])
        · rw [← hf.hash_eq left, ← hg.hash_eq right, same]

theorem verify_eq_ok {f : Fulfillment} {c : Condition} {message : Bytes}
    (ok : f.verify c message = .ok ()) : f.condition = c ∧ f.validate message = true := by
  unfold verify at ok
  split at ok
  · cases ok
  · next same =>
    split at ok
    · next holds => exact ⟨by simpa using same, holds⟩
    · split at ok
      · cases ok
      · cases ok
      · cases ok

/-- A condition tells the policy of whatever has it. -/
theorem policy_of_condition_eq {f g : Fulfillment} (hf : f.Obtained) (hg : g.Obtained)
    (known : f.isWithheld = false) (known' : g.isWithheld = false)
    (same : f.condition = g.condition) : f.policy = g.policy ∨ f.Clash g :=
  hf.wellFormed.policy_eq_or_clash hg.wellFormed known known' same

theorem policy_of_condition_eq_reduced :
    ∃ f g : Fulfillment, f.Obtained ∧ g.Obtained ∧ f.isWithheld = false ∧ g.isWithheld = false ∧
      f.condition = g.condition ∧ f ≠ g ∧ (f.policy = g.policy ∨ f.Clash g) := by
  have part : Built Decoded (.preimage Weight.one [2]) := .preimage [2]
  have fits : Wire.octetsLength 1 + 2 + Wire.octetsLength 1 < 2 ^ 64 := by decide
  have f := Built.prefixed part ((@ofPrefix_eq_ok [1] _ _).2 ⟨fits, rfl⟩)
  have g := Built.prefixed part.reduced ((@ofPrefix_eq_ok [1] _ _).2 ⟨fits, rfl⟩)
  exact ⟨_, _, f, g, rfl, rfl, rfl, nofun, policy_of_condition_eq f g rfl rfl rfl⟩

end Fulfillment

end CryptoConditions
