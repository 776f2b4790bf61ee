import JoinServer.Store

namespace JoinServer.Commands

open JoinServer.Store

inductive ResultPrinter
  | insert
  | truncate
  | intersection
  | symmetricDifference
  | unknown
  deriving DecidableEq

def ResultPrinter.print : ResultPrinter → String
  | insert => "InsertPrinter"
  | truncate => "TruncatePrinter"
  | intersection => "IntersectionPrinter"
  | symmetricDifference => "SymmetricDifferencePrinter"
  | unknown => "UnknownPrinter"

/-- The classes derived from `Command`. The table, id and value of `Insert`
have setters that nothing calls, and no `run` reads them. -/
inductive Command
  | insert
  | truncate
  | intersection
  | symmetricDifference
  | unknown
  deriving DecidableEq

/-- Every command holds the store; none of the `run` functions uses it. -/
def Command.run (storage : Storage) : Command → ResultPrinter × Storage
  | insert => (.insert, storage)
  | truncate => (.truncate, storage)
  | intersection => (.intersection, storage)
  | symmetricDifference => (.symmetricDifference, storage)
  | unknown => (.unknown, storage)

/-- `CommandFactory::create` compares the whole line with two bare keywords. -/
def create (cmdStr : String) : Command :=
  if cmdStr = "INSERT" then .insert
  else if cmdStr = "TRUNCATE" then .truncate
  else .unknown

def execute (storage : Storage) (command : String) : ResultPrinter × Storage :=
  (create command).run storage

theorem create_cases (line : String) :
    create line = .insert ∨ create line = .truncate ∨ create line = .unknown := by
  unfold create
  split_ifs
  · exact .inl rfl
  · exact .inr (.inl rfl)
  · exact .inr (.inr rfl)

theorem execute_storage (s : Storage) (line : String) : (execute s line).2 = s := by
  unfold execute
  cases create line <;> rfl

theorem execute_print (s : Storage) (line : String) :
    (execute s line).1.print = "InsertPrinter" ∨ (execute s line).1.print = "TruncatePrinter" ∨
      (execute s line).1.print = "UnknownPrinter" := by
  unfold execute
  obtain h | h | h := create_cases line
  · exact .inl (by rw [h, Command.run, ResultPrinter.print])
  · exact .inr (.inl (by rw [h, Command.run, ResultPrinter.print]))
  · exact .inr (.inr (by rw [h, Command.run, ResultPrinter.print]))

end JoinServer.Commands
