import CryptoConditions.Document.Basic
import CryptoConditions.Proofs.Condition.Forms
import CryptoConditions.Proofs.Key.Text

/-! What is built from a description. A node is built from a URI, from the text of a key, or from
the fulfillments that its parts come to; the features that it declares are checked in each case.
Its type is what a key or a threshold is built by. A node that goes by its URI is built by nothing
else, so the type that it declares may be any number. -/

namespace CryptoConditions.Details

open Fulfillment

theorem induct {P : Details → Prop} (step : ∀ d, (∀ part ∈ d.subs.getD [], P part) → P d)
    (d : Details) : P d :=
  @Details.rec P (fun subs => ∀ part ∈ subs.getD [], P part) (fun subs => ∀ part ∈ subs, P part)
    (fun _ _ _ _ _ _ _ _ parts => step _ parts) (List.forall_mem_nil _) (fun _ parts => parts)
    (List.forall_mem_nil _) (fun _ _ first rest => List.forall_mem_cons.2 ⟨first, rest⟩) d

theorem listToFulfillments_eq_mapM (subs : List Details) :
    listToFulfillments subs = subs.mapM toFulfillment := by
  induction subs with
  | nil => rfl
  | cons d ds ih => rw [listToFulfillments, ih, List.mapM_cons]

theorem ofKeyNode_eq_ok {type : ConditionType} {publicKey : Option String} {f : Fulfillment} :
    ofKeyNode type publicKey = .ok f ↔ f.type = type ∧ ∃ text key, publicKey = some text ∧
      PublicKey.ofBase58 text = .ok key ∧ ofPublicKey key = .ok f := by
  cases publicKey with
  | none => simp [ofKeyNode, fail]
  | some text =>
    rw [ofKeyNode]
    cases read : PublicKey.ofBase58 text with
    | error e => simp [read]
    | ok key =>
      simp only [bind_eq_ok]
      constructor
      · rintro ⟨g, made, ok⟩
        split at ok
        · next same =>
          cases ok
          exact ⟨same, text, key, rfl, read, made⟩
        · cases ok
      · rintro ⟨same, _, own, named, found, made⟩
        cases named
        cases read.symm.trans found
        exact ⟨f, made, by rw [if_pos same]; rfl⟩

theorem ofUriNode_eq_ok {uri : Option String} {f : Fulfillment} :
    ofUriNode uri = .ok f ↔
      ∃ c : Condition, uri = some c.uri ∧ c.Consistent ∧ f = .withheld (.plain c) := by
  cases uri with
  | none => simp [ofUriNode, fail]
  | some text =>
    simp only [ofUriNode, bind_eq_ok, pure_eq_ok]
    constructor
    · rintro ⟨c, read, rfl⟩
      obtain ⟨rfl, consistent⟩ := Condition.ofUri_ok read
      exact ⟨c, rfl, consistent, rfl⟩
    · rintro ⟨c, same, consistent, rfl⟩
      cases same
      exact ⟨c, consistent.ofUri, rfl⟩

theorem type_of_ofPublicKey {key : PublicKey} {f : Fulfillment} (made : ofPublicKey key = .ok f) :
    f.type = .ed25519 ∨ f.type = .rsa := by
  cases key with
  | ed25519 key =>
    have made : ofEd25519 key none = .ok f := made
    obtain ⟨_, rfl, _⟩ := ofEd25519_eq_ok made
    exact Or.inl rfl
  | rsa key =>
    have made : ofRsa key none = .ok f := made
    obtain ⟨_, _, rfl, _⟩ := ofRsa_eq_ok made
    exact Or.inr rfl

def ofNode (d : Details) : Except ConditionError Fulfillment :=
  match d.kind with
  | .condition => ofUriNode d.uri
  | .fulfillment =>
    match ConditionType.ofId? d.type.toNat with
    | none => .error (.type (.unknownType d.type.toNat))
    | some .ed25519 => ofKeyNode .ed25519 d.publicKey
    | some .rsa => ofKeyNode .rsa d.publicKey
    | some .threshold =>
      match d.threshold with
      | none => fail .noThreshold
      | some needed => (d.subs.getD []).mapM toFulfillment >>= ofThreshold needed
    | some other => .error (.type (.notStructural other))

theorem toFulfillment_eq (d : Details) :
    d.toFulfillment = d.ofNode >>= declared d.features d.weight := by
  obtain ⟨features, kind, type, publicKey, subs, threshold, weight, uri⟩ := d
  rw [toFulfillment.eq_def, ofNode]
  dsimp only
  -- What is declared is checked at the end of each branch of the definition.
  cases kind with
  | condition => rfl
  | fulfillment =>
    dsimp only
    cases ConditionType.ofId? type.toNat with
    | none => rfl
    | some known =>
      cases known with
      | threshold =>
        cases threshold with
        | none => rfl
        | some needed =>
          cases subs with
          | none => rfl
          | some subs =>
            dsimp only
            rw [listToFulfillments_eq_mapM, Option.getD_some, bind_assoc]
      | _ => rfl

/-- What a node describes: a condition by its URI, a key by its text, or a threshold over what is
built from its parts. -/
inductive Describes (d : Details) : Fulfillment → Prop where
  | whole {c : Condition} (kind : d.kind = .condition) (uri : d.uri = some c.uri)
      (consistent : c.Consistent) : Describes d (.withheld (.plain c))
  | key {text : String} {key : PublicKey} {f : Fulfillment} (kind : d.kind = .fulfillment)
      (type : d.type.toNat = f.type.id) (named : d.publicKey = some text)
      (read : PublicKey.ofBase58 text = .ok key) (made : ofPublicKey key = .ok f) : Describes d f
  | threshold {needed : UInt32} {parts : List Fulfillment} {f : Fulfillment}
      (kind : d.kind = .fulfillment) (type : d.type.toNat = ConditionType.threshold.id)
      (needs : d.threshold = some needed)
      (built : (d.subs.getD []).mapM toFulfillment = .ok parts)
      (made : ofThreshold needed parts = .ok f) : Describes d f

theorem ofNode_eq_ok {d : Details} {f : Fulfillment} : d.ofNode = .ok f ↔ d.Describes f := by
  constructor
  · intro ok
    have keyed {type : ConditionType} (kind : d.kind = .fulfillment)
        (known : ConditionType.ofId? d.type.toNat = some type)
        (ok : ofKeyNode type d.publicKey = .ok f) : d.Describes f := by
      obtain ⟨rfl, _, _, named, read, made⟩ := ofKeyNode_eq_ok.1 ok
      exact .key kind (ConditionType.id_of_ofId? known).symm named read made
    unfold ofNode at ok
    split at ok
    · next kind =>
      obtain ⟨c, same, consistent, rfl⟩ := ofUriNode_eq_ok.1 ok
      exact .whole kind same consistent
    · next kind =>
      split at ok
      · cases ok
      · next known => exact keyed kind known ok
      · next known => exact keyed kind known ok
      · next known =>
        split at ok
        · cases ok
        · next needs =>
          obtain ⟨parts, built, made⟩ := bind_eq_ok.1 ok
          exact .threshold kind (ConditionType.id_of_ofId? known).symm needs built made
      · cases ok
  · rintro (⟨kind, same, consistent⟩ | ⟨kind, same, named, read, made⟩ |
      ⟨kind, same, needs, built, made⟩)
    · rw [ofNode, kind]
      exact ofUriNode_eq_ok.2 ⟨_, same, consistent, rfl⟩
    · have node := ofKeyNode_eq_ok.2 ⟨rfl, _, _, named, read, made⟩
      rw [ofNode, kind, same, ConditionType.ofId?_id]
      rcases type_of_ofPublicKey made with own | own <;> rw [own] at node ⊢ <;> exact node
    · rw [ofNode, kind, same, ConditionType.ofId?_id, needs]
      exact bind_eq_ok.2 ⟨_, built, made⟩

theorem toFulfillment_eq_ok {d : Details} {f : Fulfillment} :
    d.toFulfillment = .ok f ↔ ∃ g, d.Describes g ∧ declared d.features d.weight g = .ok f := by
  simp only [toFulfillment_eq, bind_eq_ok, ofNode_eq_ok]

theorem declared_eq_ok {features : UInt64} {weight : Option UInt32} {f g : Fulfillment} :
    declared features weight f = .ok g ↔ features.toNat = f.condition.features.toNat ∧
      (weight = none ∧ g = f ∨
        ∃ n w, weight = some n ∧ Weight.ofNat n.toNat = .ok w ∧ g = f.withWeight w) := by
  unfold declared
  dsimp only
  by_cases same : f.condition.features.toNat = features.toNat
  · rw [if_neg (not_not.2 same)]
    cases weight with
    | none => simp [same, eq_comm]
    | some n =>
      dsimp only
      simp only [bind_eq_ok, pure_eq_ok]
      simp [same]
  · rw [if_pos same]
    simp [fail, Ne.symm same]

theorem condition_of_declared {features : UInt64} {weight : Option UInt32} {f g : Fulfillment}
    (ok : declared features weight f = .ok g) :
    features.toNat = g.condition.features.toNat ∧ g.condition = f.condition := by
  obtain ⟨same, ⟨_, rfl⟩ | ⟨_, w, _, _, rfl⟩⟩ := declared_eq_ok.1 ok
  · exact ⟨same, rfl⟩
  · rw [condition_withWeight]
    exact ⟨same, rfl⟩

theorem Describes.built_of_parts {given : Fulfillment → Prop} {d : Details} {f : Fulfillment}
    (describes : d.Describes f) (parts : ∀ part ∈ d.subs.getD [], ∀ {sub : Fulfillment},
      part.toFulfillment = .ok sub → Built given sub) : Built given f := by
  cases describes with
  | whole _ _ consistent => exact .withheld consistent.ofParts Weight.one none
  | @key _ key _ _ _ _ _ made =>
    cases key with
    | ed25519 key =>
      have made : ofEd25519 key none = .ok f := made
      exact .ed25519 made
    | rsa key =>
      have made : ofRsa key none = .ok f := made
      exact .rsa made
  | threshold _ _ _ built made =>
    refine .threshold (fun sub mem => ?_) made
    obtain ⟨part, inside, found⟩ := exists_of_mem_right (mapM_eq_ok built) mem
    exact parts part inside found

theorem built_of_toFulfillment {given : Fulfillment → Prop} (d : Details) :
    ∀ {f : Fulfillment}, d.toFulfillment = .ok f → Built given f := by
  induction d using induct with
  | step d ih =>
    intro f ok
    obtain ⟨g, describes, ok⟩ := toFulfillment_eq_ok.1 ok
    have inner : Built given g := describes.built_of_parts ih
    obtain ⟨_, ⟨_, rfl⟩ | ⟨_, w, _, _, rfl⟩⟩ := declared_eq_ok.1 ok
    · exact inner
    · exact .weighted w inner

theorem Describes.built {given : Fulfillment → Prop} {d : Details} {f : Fulfillment}
    (describes : d.Describes f) : Built given f :=
  describes.built_of_parts fun part _ => built_of_toFulfillment part

theorem wellFormed_of_toFulfillment {d : Details} {f : Fulfillment} (ok : d.toFulfillment = .ok f) :
    f.WellFormed :=
  Built.wellFormed (fun _ => False.elim) (built_of_toFulfillment d ok)

end CryptoConditions.Details
