/-! Best values by the weight that a choice reaches: a list of sums in rising
order, each with the best value found for it. Sums stop at the weight needed,
so that every choice that suffices meets in one bucket. -/

namespace CryptoConditions.Threshold

abbrev Buckets (α : Type) : Type := List (Nat × α)

namespace Buckets

/-- The better value for every sum of either side. -/
def merge {α : Type} (better : α → α → α) : Buckets α → Buckets α → Buckets α
  | [], ys => ys
  | xs, [] => xs
  | (a, x) :: xs, (b, y) :: ys =>
    if a < b then (a, x) :: merge better xs ((b, y) :: ys)
    else if b < a then (b, y) :: merge better ((a, x) :: xs) ys
    else (a, better x y) :: merge better xs ys
termination_by xs ys => xs.length + ys.length

/-- Every sum raised by a weight, but not above the weight needed. -/
def raise {α : Type} (better : α → α → α) (needed weight : Nat) (buckets : Buckets α) :
    Buckets α :=
  let low := buckets.filter fun bucket => bucket.1 + weight < needed
  let high := buckets.filter fun bucket => needed ≤ bucket.1 + weight
  low.map (fun bucket => (bucket.1 + weight, bucket.2)) ++
    match high with
    | [] => []
    | (_, value) :: rest => [(needed, rest.foldl (fun best bucket => better best bucket.2) value)]

def map {α β : Type} (f : α → β) (buckets : Buckets α) : Buckets β :=
  List.map (fun bucket => (bucket.1, f bucket.2)) buckets

end Buckets

end CryptoConditions.Threshold
