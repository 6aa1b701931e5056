import CryptoConditions.Proofs.Fulfillment.Binding
import CryptoConditions.Proofs.Key.Text
import CryptoConditions.Proofs.Wire.Uri
import CryptoConditions.Transaction.Signing
import Mathlib.Data.List.Perm.Basic

/-! Unanimous consent: a fulfillment that has the condition the owners imply, and
holds, carries a signature of every owner. Who is to sign is known from a condition
alone, so the argument ends at hashes: another signer would show two byte strings
with one hash. -/

namespace CryptoConditions.Transaction

inductive SignedBy (message : Bytes) : PublicKey → Fulfillment → Prop where
  | ed25519 (w : Weight) {key : Ed25519.PublicKey} {signature : Octets 64}
      (holds : (PublicKey.ed25519 key).verify message signature.bytes = true) :
      SignedBy message (.ed25519 key) (.ed25519 w key (some signature))
  | rsa (w : Weight) {key : Rsa.PublicKey} (long : Rsa.minLength ≤ key.modulus.length)
      {signature : Octets key.modulus.length}
      (holds : (PublicKey.rsa key).verify message signature.bytes = true) :
      SignedBy message (.rsa key) (.rsa w key long (some signature))

/-- Signed by the owner, or under a modulus that collides with the owner's. -/
inductive Vouched (message : Bytes) : PublicKey → Fulfillment → Prop where
  | signed {owner : PublicKey} {f : Fulfillment} (byOwner : SignedBy message owner f) :
      Vouched message owner f
  | collided (w : Weight) {own key : Rsa.PublicKey} (long : Rsa.minLength ≤ key.modulus.length)
      (signature : Option (Octets key.modulus.length))
      (moduli : Collision key.modulus.bytes own.modulus.bytes) :
      Vouched message (.rsa own) (.rsa w key long signature)

/-- What a fulfillment says of the owners: the one owner has signed, or each of several has signed
a part of its own, or else the bytes hashed for it and for the owners collide. -/
inductive Consent (message : Bytes) : List PublicKey → Fulfillment → Prop where
  | single {owner : PublicKey} {f : Fulfillment} (vouched : Vouched message owner f) :
      Consent message [owner] f
  | joint {owners order : List PublicKey} {w : Weight} {needed : UInt32} {subs : List Fulfillment}
      {selection : Selection} {c : Condition} (several : 2 ≤ owners.length)
      (perm : order.Perm owners) (matched : List.Forall₂ (Vouched message) order subs) :
      Consent message owners (.threshold w needed subs selection c)
  | collided {owners : List PublicKey} {w : Weight} {needed number : UInt32}
      {subs parts : List Fulfillment} {selection selection' : Selection} {c c' : Condition}
      (several : 2 ≤ owners.length)
      (implied : Fulfillment.ofOwners owners =
        .ok (.threshold Weight.one number parts selection' c'))
      (fingerprints : Collision
        (Threshold.fingerprint needed (subs.map Fulfillment.commitment))
        (Threshold.fingerprint number (parts.map Fulfillment.commitment))) :
      Consent message owners (.threshold w needed subs selection c)

section Keys

def StandardKey : PublicKey → Prop
  | .ed25519 _ => True
  | .rsa key => key.exponent = Rsa.publicExponent

theorem standardKey_of_ofBase58 {text : String} {key : PublicKey}
    (ok : PublicKey.ofBase58 text = .ok key) : StandardKey key := by
  have standard := PublicKey.standard_of_ofBase58 ok
  cases key with
  | ed25519 _ => exact True.intro
  | rsa _ => exact standard.1

theorem ed25519_key_eq {a b : Ed25519.PublicKey} (same : a.octets = b.octets) : a = b := by
  obtain ⟨octets, _⟩ := a
  obtain ⟨octets', _⟩ := b
  have eq : octets = octets' := same
  subst eq
  rfl

theorem rsa_key_eq {a b : Rsa.PublicKey} (left : StandardKey (.rsa a))
    (right : StandardKey (.rsa b)) (same : a.modulus = b.modulus) : a = b := by
  obtain ⟨modulus, exponent⟩ := a
  obtain ⟨modulus', exponent'⟩ := b
  have moduli : modulus = modulus' := same
  have exponents : exponent = exponent' := Eq.trans left (Eq.symm right)
  rw [moduli, exponents]

end Keys

theorem forall_of_mapM {ε α β : Type} {f : α → Except ε β} {P : β → Prop}
    (made : ∀ a b, f a = .ok b → P b) {list : List α} {results : List β}
    (ok : list.mapM f = .ok results) : ∀ b ∈ results, P b := by
  intro b mem
  obtain ⟨a, _, found⟩ := exists_of_mem_right (mapM_eq_ok ok) mem
  exact made a b found

theorem ofPublicKey_eq_ok {owner : PublicKey} {f : Fulfillment}
    (made : Fulfillment.ofPublicKey owner = .ok f) :
    (∃ key, owner = .ed25519 key ∧ f = .ed25519 Weight.one key none) ∨
      ∃ key long, owner = .rsa key ∧ f = .rsa Weight.one key long none := by
  cases owner with
  | ed25519 key =>
    cases made
    exact Or.inl ⟨key, rfl, rfl⟩
  | rsa key =>
    have unsigned : Fulfillment.ofRsa key none = .ok f := made
    obtain ⟨long, signature, rfl, bytes⟩ := Fulfillment.ofRsa_eq_ok unsigned
    cases signature with
    | none => exact Or.inr ⟨key, long, rfl, rfl⟩
    | some _ => cases bytes

theorem isWithheld_of_validate {f : Fulfillment} {message : Bytes}
    (holds : f.validate message = true) : f.isWithheld = false := by
  cases f with
  | withheld => simp [Fulfillment.validate] at holds
  | _ => rfl

theorem vouched_of_ed25519 {message : Bytes} {key : Ed25519.PublicKey} {w : Weight}
    {f : Fulfillment} (wellFormed : f.WellFormed)
    (same : f.condition = (Fulfillment.ed25519 w key none).condition)
    (holds : f.validate message = true) : Vouched message (.ed25519 key) f := by
  rcases wellFormed.policy_eq_or_clash (.ed25519 w key none) (isWithheld_of_validate holds) rfl
    same with policies | clash
  · cases f with
    | ed25519 w own signature =>
      obtain rfl := ed25519_key_eq (Policy.ed25519.inj policies)
      cases signature with
      | none => simp [Fulfillment.validate] at holds
      | some signature =>
        rw [Fulfillment.validate] at holds
        exact .signed (.ed25519 w holds)
    | _ => cases policies
  · obtain ⟨_, _, _, none, _⟩ := clash
    cases none

theorem vouched_of_rsa {message : Bytes} {key : Rsa.PublicKey}
    {long : Rsa.minLength ≤ key.modulus.length} {w : Weight} {f : Fulfillment}
    (wellFormed : f.WellFormed) (standard : f.StandardKeys) (standardKey : StandardKey (.rsa key))
    (same : f.condition = (Fulfillment.rsa w key long none).condition)
    (holds : f.validate message = true) : Vouched message (.rsa key) f := by
  have known := isWithheld_of_validate holds
  have type : f.type = .rsa := by
    rw [← wellFormed.condition.2, same]
    rfl
  rcases wellFormed.policy_eq_or_clash (.rsa w key long none) known rfl same with policies | clash
  · cases f with
    | rsa w own _ signature =>
      obtain rfl := rsa_key_eq (Fulfillment.standardKeys_rsa.1 standard) standardKey
        (Policy.rsa.inj policies)
      cases signature with
      | none => simp [Fulfillment.validate] at holds
      | some signature =>
        rw [Fulfillment.validate] at holds
        exact .signed (.rsa w long holds)
    | _ => cases policies
  · obtain ⟨a, b, left, right, moduli⟩ := clash
    cases f with
    | rsa w own long signature =>
      cases left
      cases right
      exact .collided w long signature moduli
    | withheld => cases known
    | _ => cases type

theorem vouched_of_condition {message : Bytes} {owner : PublicKey} {f expected : Fulfillment}
    (wellFormed : f.WellFormed) (standard : f.StandardKeys) (standardKey : StandardKey owner)
    (made : Fulfillment.ofPublicKey owner = .ok expected)
    (same : f.condition = expected.condition) (holds : f.validate message = true) :
    Vouched message owner f := by
  rcases ofPublicKey_eq_ok made with ⟨key, rfl, rfl⟩ | ⟨key, long, rfl, rfl⟩
  · exact vouched_of_ed25519 wellFormed same holds
  · exact vouched_of_rsa wellFormed standard standardKey same holds

theorem forall_validate {message : Bytes} {subs : List Fulfillment}
    (ones : ∀ sub ∈ subs, sub.weight.toNat = 1)
    (all : subs.length ≤ Fulfillment.validWeight subs message) :
    ∀ sub ∈ subs, sub.validate message = true := by
  -- The weights only just suffice, so that no part can be left out.
  have bound (list : List Fulfillment) (ones : ∀ sub ∈ list, sub.weight.toNat = 1) :
      Fulfillment.validWeight list message ≤ list.length := by
    induction list with
    | nil => simp [Fulfillment.validWeight]
    | cons sub list ih =>
      rw [List.forall_mem_cons] at ones
      have rest := ih ones.2
      rw [Fulfillment.validWeight, ones.1, List.length_cons]
      split <;> omega
  induction subs with
  | nil => nofun
  | cons sub subs ih =>
    rw [List.forall_mem_cons] at ones
    have rest := bound subs ones.2
    rw [Fulfillment.validWeight, ones.1, List.length_cons] at all
    split at all
    · next holds =>
      rw [Bool.and_eq_true] at holds
      exact List.forall_mem_cons.2 ⟨holds.2, ih ones.2 (by omega)⟩
    · omega

theorem forall_validate_of_shares {message : Bytes} {subs parts : List Fulfillment}
    (shares : (subs.map fun sub => sub.commitment.share) =
      parts.map fun part => part.commitment.share)
    (ones : ∀ part ∈ parts, part.weight = Weight.one)
    (all : parts.length ≤ Fulfillment.validWeight subs message) :
    ∀ sub ∈ subs, sub.validate message = true := by
  have lengths := congrArg List.length shares
  rw [List.length_map, List.length_map] at lengths
  refine forall_validate ?_ (by omega)
  intro sub mem
  have share : sub.commitment.share ∈ parts.map fun part => part.commitment.share := by
    rw [← shares]
    exact List.mem_map_of_mem mem
  obtain ⟨part, inside, eq⟩ := List.mem_map.1 share
  have weights : part.weight = sub.weight := congrArg Prod.fst eq
  rw [← weights, ones part inside]
  rfl

theorem forall₂_vouched {message : Bytes} {order : List PublicKey} {subs parts : List Fulfillment}
    (wellFormed : ∀ sub ∈ subs, sub.WellFormed) (standard : ∀ sub ∈ subs, sub.StandardKeys)
    (standardKeys : ∀ owner ∈ order, StandardKey owner)
    (made : List.Forall₂ (fun owner part => Fulfillment.ofPublicKey owner = .ok part) order parts)
    (shares : (subs.map fun sub => sub.commitment.share) =
      parts.map fun part => part.commitment.share)
    (hold : ∀ sub ∈ subs, sub.validate message = true) :
    List.Forall₂ (Vouched message) order subs := by
  induction made generalizing subs with
  | nil =>
    rw [List.map_nil, List.map_eq_nil_iff] at shares
    subst shares
    exact .nil
  | @cons owner part order parts first _ ih =>
    cases subs with
    | nil => cases shares
    | cons sub subs =>
      rw [List.forall_mem_cons] at wellFormed standard standardKeys hold
      rw [List.map_cons, List.map_cons, List.cons.injEq] at shares
      have condition : sub.condition = part.condition := congrArg Prod.snd shares.1
      exact .cons
        (vouched_of_condition wellFormed.1 standard.1 standardKeys.1 first condition hold.1)
        (ih wellFormed.2 standard.2 standardKeys.2 shares.2 hold.2)

theorem ofPublicKey_sound {owner : PublicKey} {f : Fulfillment}
    (made : Fulfillment.ofPublicKey owner = .ok f) : f.WellFormed ∧ f.weight = Weight.one := by
  rcases ofPublicKey_eq_ok made with ⟨key, _, rfl⟩ | ⟨key, long, _, rfl⟩
  · exact ⟨.ed25519 _ key none, rfl⟩
  · exact ⟨.rsa _ key long none, rfl⟩

theorem joint_consent {message : Bytes} {owners : List PublicKey} {parts : List Fulfillment}
    {f expected : Fulfillment} (wellFormed : f.WellFormed) (standard : f.StandardKeys)
    (standardKeys : ∀ owner ∈ owners, StandardKey owner) (several : 2 ≤ owners.length)
    (implied : Fulfillment.ofOwners owners = .ok expected)
    (keys : owners.mapM Fulfillment.ofPublicKey = .ok parts)
    (made : Fulfillment.ofThreshold (UInt32.ofNat owners.length) parts = .ok expected)
    (same : f.condition = expected.condition) (holds : f.validate message = true) :
    Consent message owners f := by
  obtain ⟨order, selection, c, rfl, perm, assembled⟩ := Fulfillment.ofThreshold_eq_ok made
  have type : f.type = .threshold := by
    rw [← wellFormed.condition.2, same]
    exact (Threshold.condition_eq_ok assembled.condition_eq).2.1
  have known := isWithheld_of_validate holds
  have sound : ∀ part ∈ order, part.WellFormed ∧ part.weight = Weight.one := fun part mem =>
    forall_of_mapM (fun _ _ => ofPublicKey_sound) keys part (perm.mem_iff.1 mem)
  cases wellFormed with
  | withheld => cases known
  | @threshold w needed subs selection' c' inner assembled' =>
    -- Two thresholds of one hash have one fingerprint, or make a collision.
    by_cases fingerprints : Threshold.fingerprint needed (subs.map Fulfillment.commitment) =
        Threshold.fingerprint (UInt32.ofNat owners.length) (order.map Fulfillment.commitment)
    · obtain ⟨numbers, shares⟩ := Fulfillment.threshold_policy inner
        (fun part mem => (sound part mem).1) assembled' assembled fingerprints
      have hold : ∀ sub ∈ subs, sub.validate message = true := by
        have count : order.length = owners.length := by
          rw [perm.length_eq, ← (mapM_eq_ok keys).length_eq]
        have few := assembled.few
        refine forall_validate_of_shares shares (fun part mem => (sound part mem).2) ?_
        rw [Fulfillment.validate, decide_eq_true_eq, numbers, UInt32.toNat_ofNat',
          Nat.mod_eq_of_lt (by omega)] at holds
        omega
      obtain ⟨signers, matched, signers_perm⟩ :=
        List.perm_comp_forall₂ perm (mapM_eq_ok keys).flip
      exact .joint several signers_perm
        (forall₂_vouched inner (Fulfillment.standardKeys_threshold.1 standard)
          (fun owner mem => standardKeys owner (signers_perm.mem_iff.1 mem)) matched.flip shares
          hold)
    · refine .collided several implied ⟨fingerprints, ?_⟩
      rw [← (Threshold.condition_eq_ok assembled.condition_eq).2.2,
        ← (Threshold.condition_eq_ok assembled'.condition_eq).2.2]
      exact congrArg Condition.hash same
  | _ => cases type

theorem consent_of_condition {message : Bytes} {owners : List PublicKey} {f expected : Fulfillment}
    (wellFormed : f.WellFormed) (standard : f.StandardKeys)
    (standardKeys : ∀ owner ∈ owners, StandardKey owner)
    (implied : Fulfillment.ofOwners owners = .ok expected)
    (same : f.condition = expected.condition) (holds : f.validate message = true) :
    Consent message owners f := by
  cases owners with
  | nil => cases implied
  | cons owner others =>
    cases others with
    | nil =>
      exact .single (vouched_of_condition wellFormed standard (standardKeys owner (by simp))
        implied same holds)
    | cons other rest =>
      obtain ⟨parts, keys, made⟩ := bind_eq_ok.1 implied
      exact joint_consent wellFormed standard standardKeys (by simp) implied keys made same holds

theorem ofCondition_eq_ok {α : Type} {x : Except ConditionError α} {a : α}
    (ok : ofCondition x = .ok a) : x = .ok a := by
  cases x with
  | error _ => cases ok
  | ok _ =>
    cases ok
    rfl

theorem checkInput_eq_ok {message : Bytes} {input : Input}
    (ok : checkInput message input = .ok ()) :
    ∃ uri f owners expected, input.fulfillment = some uri ∧ Fulfillment.ofUri uri = .ok f ∧
      input.keys = .ok owners ∧ Fulfillment.ofOwners owners = .ok expected ∧
      f.condition = expected.condition ∧ f.validate message = true := by
  unfold checkInput at ok
  split at ok
  · cases ok
  · next uri attached =>
    obtain ⟨f, read, ok⟩ := bind_eq_ok.1 ok
    dsimp only at ok
    split at ok
    · next owners keys =>
      obtain ⟨_, same, ok⟩ := bind_eq_ok.1 ok
      cases same
      obtain ⟨expected, implied, ok⟩ := bind_eq_ok.1 ok
      obtain ⟨same, holds⟩ := Fulfillment.verify_eq_ok (ofCondition_eq_ok ok)
      exact ⟨uri, f, owners, expected, attached, ofCondition_eq_ok read, keys,
        ofCondition_eq_ok implied, same, holds⟩
    · cases ok

theorem checkInputs_eq_ok {message : Bytes} {inputs : List Input}
    (ok : checkInputs message inputs = .ok true) :
    ∀ input ∈ inputs, checkInput message input = .ok () := by
  induction inputs with
  | nil => nofun
  | cons input inputs ih =>
    unfold checkInputs at ok
    split at ok
    · next passed => exact List.forall_mem_cons.2 ⟨passed, ih ok⟩
    · cases ok
    · cases ok

end CryptoConditions.Transaction
