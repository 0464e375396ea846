import Horn.Sample.Value

/-!
# Samples

A sample is a predicate handle together with a list of argument values. Samples are totally
ordered: by predicate first, then argument by argument, and a sample comes before its proper
extensions (`Sample.compare`). Every list and every set of samples is shown in this order.

An operation that compares refuses a value without a place in the order;
`Sample.firstUnsupported?` names the value that is reported.
-/

namespace Horn

/-- A ground instantiation of the arguments of a predicate. -/
structure Sample where
  pred : Int
  args : List Value
  deriving DecidableEq, Inhabited

namespace Sample

/-- The lexicographic order on argument lists by the keys of the values. -/
def compareArgs : List Value → List Value → Ordering
  | [], [] => .eq
  | [], _ :: _ => .lt
  | _ :: _, [] => .gt
  | a :: as, b :: bs =>
    match a.key.compare b.key with
    | .eq => compareArgs as bs
    | o => o

/-- The order on samples: predicate handle, then arguments. -/
def compare (s t : Sample) : Ordering :=
  if s.pred < t.pred then .lt
  else if t.pred < s.pred then .gt
  else compareArgs s.args t.args

/-- Whether two samples have the same key. -/
def same (s t : Sample) : Bool := compare s t == .eq

/-- The first value of a sample that has no place in the order. -/
def unsupported? (s : Sample) : Option Value := s.args.find? (!·.isSupported)

/-- The first unsupported value of a list of samples. -/
def firstUnsupported? (samples : List Sample) : Option Value := samples.findSome? unsupported?

/-- Whether the value at some position is not known. -/
def hasUnknowns (s : Sample) : Bool := s.args.any (· == .unknown)

/-- The text of a sample under a name for its predicate: `(P 0 True _)`. -/
def render (name : String) (s : Sample) : String :=
  if s.args.isEmpty then "(" ++ name ++ ")"
  else "(" ++ name ++ " " ++ " ".intercalate (s.args.map (·.toText)) ++ ")"

/-- The text of a sample, in which the predicate is shown by its handle. -/
def text (s : Sample) : String := s.render ("#" ++ toString s.pred)

/-- A list of samples in ascending order. -/
def sort (samples : List Sample) : List Sample :=
  samples.mergeSort fun s t => compare s t != .gt

/-- The order in which sorting looks at the keys of a list: the second sample is compared with
the first one, then the others follow. A single sample is compared with nothing. -/
def sortingOrder : List Sample → List Sample
  | [] => []
  | [_] => []
  | a :: b :: rest => b :: a :: rest

/-- The value that keeps a list from being sorted. -/
def sortingFault? (samples : List Sample) : Option Value :=
  firstUnsupported? (sortingOrder samples)

end Sample

end Horn
