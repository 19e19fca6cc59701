import Mathlib.Data.List.Basic

/-! A stream that arrives in pieces. One read gives the next piece, or as much of it as there is
room for; a read that gives nothing is the end. -/

structure Chunks (α : Type) where
  pieces : List (List α)
  solid : [] ∉ pieces

namespace Chunks

variable {α : Type}

/-- What is left of the stream. -/
def left (c : Chunks α) : List α := c.pieces.flatten

def readPieces : Nat → List (List α) → Option (List α) × List (List α)
  | 0, pieces => (some [], pieces)
  | _ + 1, [] => (none, [])
  | n + 1, piece :: pieces =>
    if piece.length ≤ n + 1 then
      let rest := readPieces (n + 1 - piece.length) pieces
      (rest.1.map (piece ++ ·), rest.2)
    else (some (piece.take (n + 1)), piece.drop (n + 1) :: pieces)

theorem readPieces_eq (n : Nat) (pieces : List (List α)) :
    (readPieces n pieces).1 = (if n ≤ pieces.flatten.length then some (pieces.flatten.take n) else none) ∧
      (readPieces n pieces).2.flatten = pieces.flatten.drop n := by
  induction pieces generalizing n with
  | nil =>
    cases n with
    | zero => exact ⟨rfl, rfl⟩
    | succ n => exact ⟨rfl, rfl⟩
  | cons piece pieces ih =>
    cases n with
    | zero => simp [readPieces]
    | succ n =>
      rw [readPieces, List.flatten_cons]
      by_cases fits : piece.length ≤ n + 1
      · obtain ⟨given, left⟩ := ih (n + 1 - piece.length)
        rw [if_pos fits]
        have room : n + 1 - piece.length ≤ pieces.flatten.length ↔
            n + 1 ≤ (piece ++ pieces.flatten).length := by
          rw [List.length_append]
          omega
        refine ⟨?_, ?_⟩
        · dsimp only
          rw [given]
          simp only [room]
          split
          · rw [Option.map_some, List.take_append, List.take_of_length_le fits]
          · rfl
        · dsimp only
          rw [left, List.drop_append, List.drop_of_length_le fits, List.nil_append]
      · have long : n + 1 ≤ piece.length := by omega
        rw [if_neg fits]
        refine ⟨?_, ?_⟩
        · rw [if_pos (by rw [List.length_append]; omega), List.take_append_of_le_length long]
        · rw [List.flatten_cons, List.drop_append_of_le_length long]

theorem readPieces_solid (n : Nat) (pieces : List (List α)) (solid : [] ∉ pieces) :
    [] ∉ (readPieces n pieces).2 := by
  induction pieces generalizing n with
  | nil =>
    cases n with
    | zero => exact solid
    | succ n => exact solid
  | cons piece pieces ih =>
    cases n with
    | zero => exact solid
    | succ n =>
      rw [readPieces]
      split
      · exact ih _ (fun mem => solid (List.mem_cons_of_mem piece mem))
      · rename_i long
        intro mem
        rcases List.mem_cons.mp mem with nothing | mem
        · have short := List.drop_eq_nil_iff.mp nothing.symm
          omega
        · exact solid (List.mem_cons_of_mem piece mem)

/-- `read_exact`: that many items, or nothing when the stream ends before. -/
def readExact (c : Chunks α) (n : Nat) : Option (List α) × Chunks α :=
  ((readPieces n c.pieces).1, ⟨(readPieces n c.pieces).2, readPieces_solid n c.pieces c.solid⟩)

theorem readExact_given (c : Chunks α) (n : Nat) :
    (c.readExact n).1 = if n ≤ c.left.length then some (c.left.take n) else none :=
  (readPieces_eq n c.pieces).1

theorem readExact_left (c : Chunks α) (n : Nat) : (c.readExact n).2.left = c.left.drop n :=
  (readPieces_eq n c.pieces).2

end Chunks
