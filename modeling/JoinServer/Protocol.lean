import JoinServer.Commands
import JoinServer.Contents

namespace JoinServer.Protocol

open JoinServer.Lib.Runs JoinServer.Lib.FirstWins
open JoinServer.Store JoinServer.Contents JoinServer.Commands

def digits (cs : List Char) : Option Nat :=
  if cs ≠ [] ∧ cs.all Char.isDigit then
    some (cs.foldl (fun n c => 10 * n + (c.toNat - '0'.toNat)) 0)
  else none

def decimalInt (field : String) : Option Int :=
  let value := match field.toList with
    | '-' :: cs => (digits cs).map (fun n => -(n : Int))
    | cs => (digits cs).map (fun n => (n : Int))
  value.filter (fun k => -2 ^ 31 ≤ k ∧ k < 2 ^ 31)

def fields (line : String) : List String := (line.toList.splitOn ' ').map String.ofList

/-- What the protocol asks the store for. Any line that has none of the four
forms asks for nothing. -/
def parse (line : String) : Option Call :=
  match fields line with
  | ["INSERT", table, id, name] =>
    if Known table ∧ name ≠ "" then (decimalInt id).map (fun k => .insert table k name) else none
  | ["TRUNCATE", table] => if Known table then some (.truncate table) else none
  | ["INTERSECTION"] => some .intersection
  | ["SYMMETRIC_DIFFERENCE"] => some .symmetricDifference
  | _ => none

structure Row where
  id : Int
  nameA : String
  nameB : String

def Row.line (r : Row) : String := toString r.id ++ "," ++ r.nameA ++ "," ++ r.nameB

def InBoth (c : Contents String Int String) (r : Row) : Prop :=
  c "A" r.id = some r.nameA ∧ c "B" r.id = some r.nameB

def InOne (c : Contents String Int String) (r : Row) : Prop :=
  (c "A" r.id = some r.nameA ∧ c "B" r.id = none ∧ r.nameB = "") ∨
  (c "A" r.id = none ∧ r.nameA = "" ∧ c "B" r.id = some r.nameB)

/-- One line for each row, by increasing id, and then `OK`. -/
def Lists (has : Row → Prop) (reply : String) : Prop :=
  ∃ rows : List Row, rows.Pairwise (fun r r' => r.id < r'.id) ∧ (∀ r, r ∈ rows ↔ has r) ∧
    reply = String.join (rows.map (fun r => r.line ++ "\n")) ++ "OK"

def Refused (reply : String) : Prop := "ERR".toList <+: reply.toList

instance : DecidablePred Refused :=
  fun reply => inferInstanceAs (Decidable ("ERR".toList <+: reply.toList))

def Answer (c : Contents String Int String) : Option Call → String → Prop
  | some (.insert table id name), reply =>
    if Known table then
      reply = if accepts Known c (.put table id name) then "OK" else "ERR duplicate " ++ toString id
    else Refused reply
  | some (.truncate table), reply => if Known table then reply = "OK" else Refused reply
  | some .intersection, reply => Lists (InBoth c) reply
  | some .symmetricDifference, reply => Lists (InOne c) reply
  | none, reply => Refused reply

def effect (c : Contents String Int String) (request : Option Call) : Contents String Int String :=
  request.elim c (fun call => apply Known c (event call))

/-- A line that is executed on a store is answered, and changes the store, as
the protocol says. -/
def Follows (s : Storage) (line : String) : Prop :=
  Answer (contents s) (parse line) (execute s line).1.print ∧
    contents (execute s line).2 = effect (contents s) (parse line)

/-- The lines of all sessions, in the order they are executed. -/
def step (s : Storage) (line : String) : Option Storage := some (execute s line).2

theorem refused_duplicate (id : Int) : Refused ("ERR duplicate " ++ toString id) := by
  rw [Refused, String.toList_append]
  exact List.IsPrefix.trans (by decide) (List.prefix_append _ _)

theorem answer_shape {c : Contents String Int String} {request : Option Call} {reply : String}
    (h : Answer c request reply) :
    "OK".toList <:+ reply.toList ∨ Refused reply := by
  have hok {s : String} : "OK".toList <:+ (s ++ "OK").toList :=
    String.toList_append ▸ List.suffix_append _ _
  cases request with
  | none => exact .inr h
  | some call =>
    cases call with
    | insert table id name =>
      simp only [Answer] at h
      split_ifs at h
      · exact .inl (h ▸ List.suffix_refl _)
      · exact .inr (h ▸ refused_duplicate id)
      · exact .inr h
    | truncate table =>
      simp only [Answer] at h
      split_ifs at h
      · exact .inl (h ▸ List.suffix_refl _)
      · exact .inr h
    | intersection | symmetricDifference =>
      obtain ⟨rows, -, -, rfl⟩ := h
      exact .inl hok

/-- Every text the program prints is the name of a printer, and neither ends
in `OK` nor starts with `ERR`. -/
theorem not_follows (s : Storage) (line : String) : ¬ Follows s line := by
  intro h
  have hshape := answer_shape h.1
  obtain hp | hp | hp := execute_print s line <;>
  · rw [hp] at hshape
    revert hshape
    decide

/-- Only the empty sequence of lines is answered as the protocol says. -/
theorem lines_follow_iff (s : Storage) (lines : List String) :
    Along step Follows s lines ↔ lines = [] := by
  constructor
  · intro h
    cases lines with
    | nil => rfl
    | cons line lines =>
      have hfirst : [] ++ [line] <+: line :: lines := ⟨lines, rfl⟩
      exact absurd (h [] line s _ hfirst rfl rfl) (not_follows s line)
  · rintro rfl bs b s₁ s₂ hp
    simp at hp

theorem insertion_not_followed :
    (execute (boundStorage .empty .empty) "INSERT A 0 lean").1.print = "UnknownPrinter" ∧
      ¬ ∀ s lines, Along step Follows s lines := by
  refine ⟨by decide, fun h => ?_⟩
  have hfirst : [] ++ ["INSERT A 0 lean"] <+: ["INSERT A 0 lean"] := List.prefix_refl _
  exact not_follows _ _ (h (boundStorage .empty .empty) _ [] _ _ _ hfirst rfl rfl)

example : parse "INSERT A -7 lean" = some (.insert "A" (-7) "lean") := by decide

example : parse "INSERT A  0 lean" = none := by decide

end JoinServer.Protocol
