import JoinServer.Protocol

namespace JoinServer.Adequacy

open JoinServer.Lib.Runs JoinServer.Lib.FirstWins
open JoinServer.Store JoinServer.Contents JoinServer.Protocol

def rowText (r : ResultRecord) : String :=
  toString r.id ++ "," ++ r.fields.getD 0 "" ++ "," ++ r.fields.getD 1 ""

/-- The text the protocol has for what a call on the store returns. -/
def replyText : Call → Reply → String
  | .insert table id _, .flag inserted =>
    if inserted then "OK"
    else if Known table then "ERR duplicate " ++ toString id
    else "ERR unknown table"
  | .truncate _, .flag emptied => if emptied then "OK" else "ERR unknown table"
  | .intersection, .flag _ | .symmetricDifference, .flag _ => "OK"
  | _, .rows rows => String.join (rows.toList.map (fun r => rowText r ++ "\n")) ++ "OK"

/-- A line that is parsed, passed on to the store and answered with what the
store returns. The program has no such function: no command calls the store. -/
def serve (s : Storage) (line : String) : Option (String × Storage) :=
  match parse line with
  | some c => (s.call c).map (fun p => (replyText c p.1, p.2))
  | none => some ("ERR unknown command", s)

def record (row : Row) : ResultRecord := ⟨row.id, [row.nameA, row.nameB]⟩

def toRow (r : ResultRecord) : Row := ⟨r.id, r.fields.getD 0 "", r.fields.getD 1 ""⟩

theorem lists_of_rows {rows : ResultTable} {has : Row → Prop}
    (h : ∀ r, r ∈ rows ↔ ∃ row, has row ∧ r = record row) :
    Lists has (String.join (rows.toList.map (fun r => rowText r ++ "\n")) ++ "OK") := by
  refine ⟨rows.toList.map toRow, List.pairwise_map.mpr rows.sorted, fun row => ?_, ?_⟩
  · rw [List.mem_map]
    constructor
    · rintro ⟨r, hr, rfl⟩
      obtain ⟨row, hrow, rfl⟩ := (h r).mp hr
      exact hrow
    · intro hrow
      exact ⟨record row, (h _).mpr ⟨row, hrow, rfl⟩, rfl⟩
  · rw [List.map_map]
    rfl

theorem mem_named {s : Storage} {name n : String} {k : Int} :
    (⟨k, n⟩ : Record) ∈ tableNamed s name ↔ contents s name k = some n :=
  Queries.names_eq_some.symm

theorem not_mem_named {s : Storage} {name : String} {k : Int} :
    k ∉ keys (tableNamed s name) ↔ contents s name k = none :=
  Queries.names_eq_none.symm

theorem intersection_lists {s : Storage} (hb : Bound s) {rows : ResultTable}
    (h : s.intersection = some rows) (r : ResultRecord) :
    r ∈ rows ↔ ∃ row, InBoth (contents s) row ∧ r = record row := by
  obtain ⟨rows', hrows', -, hmem⟩ := Queries.intersection_rows hb.elems
  cases h.symm.trans hrows'
  rw [hmem]
  simp only [mem_named]
  constructor
  · rintro ⟨n, m, hn, hm, hf⟩
    exact ⟨⟨r.id, n, m⟩, ⟨hn, hm⟩, ResultRecord.ext rfl hf⟩
  · rintro ⟨row, ⟨hn, hm⟩, rfl⟩
    exact ⟨row.nameA, row.nameB, hn, hm, rfl⟩

theorem symmetricDifference_lists {s : Storage} (hb : Bound s) {rows : ResultTable}
    (h : s.symmetricDifference = some rows) (r : ResultRecord) :
    r ∈ rows ↔ ∃ row, InOne (contents s) row ∧ r = record row := by
  obtain ⟨rows', hrows', -, hmem⟩ := Queries.symmetricDifference_rows hb.elems
  cases h.symm.trans hrows'
  rw [hmem]
  simp only [mem_named, not_mem_named]
  constructor
  · rintro (⟨n, hn, hm, hf⟩ | ⟨m, hm, hn, hf⟩)
    · exact ⟨⟨r.id, n, ""⟩, .inl ⟨hn, hm, rfl⟩, ResultRecord.ext rfl hf⟩
    · exact ⟨⟨r.id, "", m⟩, .inr ⟨hn, rfl, hm⟩, ResultRecord.ext rfl hf⟩
  · rintro ⟨row, hrow, rfl⟩
    obtain ⟨hn, hm, hblank⟩ | ⟨hn, hblank, hm⟩ := hrow
    · exact .inl ⟨row.nameA, hn, hm, by rw [record, hblank]⟩
    · exact .inr ⟨row.nameB, hm, hn, by rw [record, hblank]⟩

theorem answer_of_answers {s : Storage} (hb : Bound s) {c : Call} {r : Reply}
    (h : Answers s c r) : Answer (contents s) (some c) (replyText c r) := by
  cases c with
  | insert table id name =>
    obtain rfl : r = _ := h
    simp only [Answer]
    by_cases hk : Known table
    · rw [if_pos hk]
      cases accepts Known (contents s) (.put table id name) with
      | true => rfl
      | false => exact if_pos hk
    · have hflag : accepts Known (contents s) (.put table id name) = false := by
        simp [accepts, hk]
      rw [if_neg hk, hflag, replyText, if_neg Bool.false_ne_true, if_neg hk]
      decide
  | truncate table =>
    obtain rfl : r = _ := h
    simp only [Answer]
    by_cases hk : Known table
    · rw [if_pos hk, accepts, decide_eq_true hk]
      rfl
    · rw [if_neg hk, accepts, decide_eq_false hk, replyText]
      decide
  | intersection =>
    obtain ⟨rows, hrows, rfl⟩ := h
    exact lists_of_rows (intersection_lists hb hrows)
  | symmetricDifference =>
    obtain ⟨rows, hrows, rfl⟩ := h
    exact lists_of_rows (symmetricDifference_lists hb hrows)

theorem serve_answers {s : Storage} (hb : Bound s) (line : String) :
    ∃ reply s', serve s line = some (reply, s') ∧ Bound s' ∧
      contents s' = effect (contents s) (parse line) ∧
      Answer (contents s) (parse line) reply := by
  unfold serve
  cases parse line with
  | none => exact ⟨_, s, rfl, hb, rfl, by rw [Answer]; decide⟩
  | some c =>
    obtain ⟨r, s', hcall, hb', hc, ha⟩ := call_refines hb c
    exact ⟨replyText c r, s', by simp only [hcall, Option.map_some], hb', hc,
      answer_of_answers hb ha⟩

theorem serve_lines {s : Storage} (hb : Bound s) (lines : List String) :
    ∃ replies s', trace serve s lines = some (replies, s') ∧ Bound s' ∧
      contents s' = (lines.map parse).foldl effect (contents s) := by
  induction lines using List.reverseRecOn with
  | nil => exact ⟨[], s, rfl, hb, rfl⟩
  | append_singleton lines line ih =>
    obtain ⟨replies, s₁, hlines, hb₁, hc₁⟩ := ih
    obtain ⟨reply, s', hserve, hb', hc', -⟩ := serve_answers hb₁ line
    refine ⟨replies ++ [reply], s', trace_concat.mpr ⟨replies, s₁, reply, hlines, hserve, rfl⟩,
      hb', ?_⟩
    rw [hc', hc₁, List.map_append, List.foldl_append]
    rfl

/-- On a bound store every line is served with the reply that the protocol asks
for at the contents it finds, and these change as the protocol says. -/
theorem store_serves_protocol (s : Storage) (hb : Bound s) (lines : List String) :
    ∃ replies s', trace serve s lines = some (replies, s') ∧
      contents s' = (lines.map parse).foldl effect (contents s) ∧
      ∀ before line after, lines = before ++ line :: after →
        ∃ reply, replies[before.length]? = some reply ∧
          Answer ((before.map parse).foldl effect (contents s)) (parse line) reply := by
  obtain ⟨replies, s', hlines, -, hc⟩ := serve_lines hb lines
  refine ⟨replies, s', hlines, hc, fun before line after hsplit => ?_⟩
  subst hsplit
  obtain ⟨replies₁, s₁, reply, s₂, h₁, h₂, hreply⟩ := trace_middle hlines
  obtain ⟨replies₀, s₀, h₀, hb₁, hc₁⟩ := serve_lines hb before
  cases h₁.symm.trans h₀
  obtain ⟨reply', s₂', hserve, -, -, ha⟩ := serve_answers hb₁ line
  cases h₂.symm.trans hserve
  exact ⟨reply, hreply, hc₁ ▸ ha⟩

theorem store_serves_protocol_sample :
    ∃ replies s', trace serve (boundStorage .empty .empty)
        ["INSERT A 0 lean", "INSERT A 0 understand", "TRUNCATE C"] = some (replies, s') ∧
      replies[1]? = some "ERR duplicate 0" ∧ ∃ reply, replies[2]? = some reply ∧ Refused reply := by
  obtain ⟨replies, s', hlines, -, hanswers⟩ := store_serves_protocol (boundStorage .empty .empty)
    (boundStorage_bound .empty .empty) ["INSERT A 0 lean", "INSERT A 0 understand", "TRUNCATE C"]
  obtain ⟨reply, hreply, ha⟩ := hanswers ["INSERT A 0 lean"] "INSERT A 0 understand" _ rfl
  obtain ⟨reply', hreply', ha'⟩ := hanswers ["INSERT A 0 lean", "INSERT A 0 understand"]
    "TRUNCATE C" _ rfl
  have hinsert : parse "INSERT A 0 lean" = some (.insert "A" 0 "lean") := by decide
  have hagain : parse "INSERT A 0 understand" = some (.insert "A" 0 "understand") := by decide
  have hother : parse "TRUNCATE C" = none := by decide
  rw [hother] at ha'
  simp only [List.map_cons, List.map_nil, List.foldl_cons, List.foldl_nil, hinsert, hagain] at ha
  obtain rfl : reply = "ERR duplicate 0" := ha
  exact ⟨replies, s', hlines, hreply, reply', hreply', ha'⟩

example : replyText .symmetricDifference
    (.rows ⟨[⟨0, ["lean", ""]⟩, ⟨6, ["", "flour"]⟩], by decide⟩) = "0,lean,\n6,,flour\nOK" := by
  decide

end JoinServer.Adequacy
