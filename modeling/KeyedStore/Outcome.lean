/-!
What an operation can answer beside a value: how an addition ended, why it was refused, which law of
coloured search trees a check found broken, and which internal assumption failed.
-/
namespace KeyedStore

/-- An addition that succeeds either makes an entry or replaces the value of one (`Added`). -/
inductive Addition where
  | inserted
  | updated
  deriving DecidableEq

/-- Why an addition was refused (`MapError`). -/
inductive AddError where
  /-- The container holds as many entries as it can number. -/
  | noRoom
  /-- The key is present and the container does not overwrite. -/
  | keyExists
  deriving DecidableEq

def AddError.message : AddError → String
  | .noRoom => "out of memory: no room for a new entry"
  | .keyExists => "key already exists"

/-- What a check of a coloured search tree can find wrong (`Violation`). -/
inductive Defect where
  | redRoot
  | redEdge
  | unevenHeight
  | disorder
  | miscount
  deriving DecidableEq

def Defect.message : Defect → String
  | .redRoot => "root is red"
  | .redEdge => "red node has a red child"
  | .unevenHeight => "black height differs between paths"
  | .disorder => "keys out of order"
  | .miscount => "reachable nodes do not match the item count"

/-- An internal assumption that did not hold. Operations answer it at the step that relied on the
assumption, so that its absence from every run is a statement about them. -/
inductive Fault where
  /-- An index led to a slot whose content is gone. -/
  | deadHandle
  /-- A repair needed the sibling of a position that has none. -/
  | missingSibling
  /-- A rotation needed a child that is not there. -/
  | missingPivot
  /-- An ancestor was looked up beyond the end of a path. -/
  | offPath
  /-- The last ancestor of an empty path was counted back to. -/
  | emptyPath
  /-- A bucket was looked up beyond the last one. -/
  | noBucket
  /-- A hash was to be divided by a number of buckets that is zero. -/
  | zeroModulus
  /-- A walk went on beyond the number of entries. -/
  | endlessWalk
  deriving DecidableEq

def Fault.message : Fault → String
  | .deadHandle => "an index leads to a released entry"
  | .missingSibling => "black height guarantees a sibling"
  | .missingPivot => "rotation needs a child on the far side"
  | .offPath => "an index lies outside the path"
  | .emptyPath => "the length of an empty path is decreased"
  | .noBucket => "an index lies outside the buckets"
  | .zeroModulus => "a hash is divided by zero"
  | .endlessWalk => "a walk goes on beyond the entries"

end KeyedStore
