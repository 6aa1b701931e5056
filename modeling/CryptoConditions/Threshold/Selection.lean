import CryptoConditions.Threshold.Condition

/-! The choice of parts that a payload reveals: of all choices that reach the
threshold one with the shortest payload, and of these the one whose bytes come
first. A hidden entry comes before the revealed entry of the same part, so the
flags decide which bytes come first. -/

namespace CryptoConditions

/-- What the payload of a threshold shows. -/
inductive Selection where
  | revealed (flags : List Bool)
  | unsatisfied (available : Nat)
  | tooLarge (length : Nat)
deriving DecidableEq

/-- Whether the part at an index is shown. -/
def Selection.reveals : Selection → Nat → Bool
  | revealed flags, i => flags.getD i false
  | unsatisfied _, _ | tooLarge _, _ => false

namespace Threshold

/-- A part, with the length of its binary form if it has one. -/
structure Share where
  part : Commitment
  revealed : Option Nat
deriving DecidableEq

/-- Flags of the parts to reveal, and the length of their entries. -/
structure Plan where
  length : Nat
  flags : List Bool
deriving DecidableEq

namespace Plan

/-- Whether `a` has a false flag where the lists first differ. -/
def flagsBefore : (a b : List Bool) → Bool
  | true :: _, false :: _ => false
  | false :: _, true :: _ => true
  | _ :: a, _ :: b => flagsBefore a b
  | [], _ => true
  | _ :: _, [] => false

def better (p q : Plan) : Plan :=
  if p.length < q.length then p
  else if q.length < p.length then q
  else if flagsBefore p.flags q.flags then p else q

def hide (share : Share) (plan : Plan) : Plan :=
  ⟨hiddenLength share.part + plan.length, false :: plan.flags⟩

def reveal (share : Share) (length : Nat) (plan : Plan) : Plan :=
  ⟨revealedLength share.part length + plan.length, true :: plan.flags⟩

end Plan

/-- Best plans for every weight that the shares can reach. -/
def plans (needed : Nat) : List Share → Buckets Plan
  | [] => [(0, ⟨0, []⟩)]
  | share :: shares =>
    let rest := plans needed shares
    let hidden := rest.map (Plan.hide share)
    match share.revealed with
    | none => hidden
    | some length =>
      Buckets.merge Plan.better hidden
        (Buckets.raise Plan.better needed share.part.weight.toNat
          (rest.map (Plan.reveal share length)))

def cheapest? (needed : Nat) (shares : List Share) : Option Plan :=
  (plans needed shares).lookup needed

def available (shares : List Share) : Nat :=
  totalWeight ((shares.filter fun share => share.revealed.isSome).map Share.part)

def select (needed : UInt32) (shares : List Share) : Selection :=
  match cheapest? needed.toNat shares with
  | none => .unsatisfied (available shares)
  | some plan =>
    let length := headerLength shares.length + plan.length
    if maxPayload < length then .tooLarge length else .revealed plan.flags

end Threshold

end CryptoConditions
