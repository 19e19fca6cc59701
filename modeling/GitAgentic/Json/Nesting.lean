import GitAgentic.Json.Text

/-! How deep a document nests, a reader that stops at a depth, and documents without
floating point literals, whose text is the same however such literals are written. -/
namespace GitAgentic.Json

/-- `serde_json` does not enter the 128th array or object. -/
def nestingLimit : Nat := 127

/- An array or an object is one level, whatever it holds. -/
mutual

def depth : Json → Nat
  | .null | .bool _ | .number _ | .string _ => 0
  | .array xs => depthElems xs + 1
  | .object ms => depthMembers ms + 1

def depthElems : List Json → Nat
  | [] => 0
  | x :: xs => max x.depth (depthElems xs)

def depthMembers : List (String × Json) → Nat
  | [] => 0
  | (_, x) :: ms => max x.depth (depthMembers ms)

end

theorem depthElems_le {n : Nat} {xs : List Json} (each : ∀ x ∈ xs, x.depth ≤ n) :
    depthElems xs ≤ n := by
  induction xs with
  | nil => exact Nat.zero_le n
  | cons x xs ih =>
    obtain ⟨first, rest⟩ := List.forall_mem_cons.mp each
    exact max_le first (ih rest)

theorem depthMembers_le {n : Nat} {ms : List (String × Json)} (each : ∀ m ∈ ms, m.2.depth ≤ n) :
    depthMembers ms ≤ n := by
  induction ms with
  | nil => exact Nat.zero_le n
  | cons m ms ih =>
    obtain ⟨first, rest⟩ := List.forall_mem_cons.mp each
    exact max_le first (ih rest)

def isIntegral : Number → Bool
  | .posInt _ | .negInt _ => true
  | .float _ => false

/- No number in the document is a floating point literal. -/
mutual

def integral : Json → Bool
  | .null | .bool _ | .string _ => true
  | .number n => isIntegral n
  | .array xs => integralElems xs
  | .object ms => integralMembers ms

def integralElems : List Json → Bool
  | [] => true
  | x :: xs => x.integral && integralElems xs

def integralMembers : List (String × Json) → Bool
  | [] => true
  | (_, x) :: ms => x.integral && integralMembers ms

end

theorem integralElems_of {xs : List Json} (each : ∀ x ∈ xs, x.integral = true) :
    integralElems xs = true := by
  induction xs with
  | nil => rfl
  | cons x xs ih =>
    obtain ⟨first, rest⟩ := List.forall_mem_cons.mp each
    exact Bool.and_eq_true_iff.mpr ⟨first, ih rest⟩

theorem integralMembers_of {ms : List (String × Json)} (each : ∀ m ∈ ms, m.2.integral = true) :
    integralMembers ms = true := by
  induction ms with
  | nil => rfl
  | cons m ms ih =>
    obtain ⟨first, rest⟩ := List.forall_mem_cons.mp each
    exact Bool.and_eq_true_iff.mpr ⟨first, ih rest⟩

section

variable (f g : UInt64 → List Char)

theorem textNumber_integral {n : Number} (h : isIntegral n = true) :
    textNumber f n = textNumber g n := by
  cases n with
  | posInt n => rfl
  | negInt m => rfl
  | float bits => cases h

mutual

theorem text_integral : (j : Json) → j.integral = true → text f j = text g j
  | .null, _ | .bool true, _ | .bool false, _ | .string _, _ => by simp only [text]
  | .number n, h => by
    rw [text, text]
    exact textNumber_integral f g h
  | .array xs, h => by
    rw [text, text, textElems_integral true xs h]
  | .object ms, h => by
    rw [text, text, textMembers_integral true ms h]

theorem textElems_integral : (first : Bool) → (xs : List Json) → integralElems xs = true →
    textElems f first xs = textElems g first xs
  | _, [], _ => by simp only [textElems]
  | first, x :: xs, h => by
    obtain ⟨own, rest⟩ := Bool.and_eq_true_iff.mp h
    cases first <;> rw [textElems, textElems, text_integral x own, textElems_integral false xs rest]

theorem textMembers_integral : (first : Bool) → (ms : List (String × Json)) →
    integralMembers ms = true → textMembers f first ms = textMembers g first ms
  | _, [], _ => by simp only [textMembers]
  | first, (k, x) :: ms, h => by
    obtain ⟨own, rest⟩ := Bool.and_eq_true_iff.mp h
    cases first <;>
      rw [textMembers, textMembers, text_integral x own, textMembers_integral false ms rest]

end

end

def sampleFromSliceWithin (b : Bytes) : Option Json :=
  (sampleFromSlice b).filter (fun j => j.depth ≤ nestingLimit)

section

variable (f : UInt64 → List Char) {j : Json}

theorem sampleFromSlice_integral (h : j.integral = true) :
    sampleFromSlice (utf8 (text f j)) = some j := by
  rw [text_integral f sampleF64 j h]
  exact sampleFromSlice_text j

theorem sampleFromSliceWithin_text (h : j.integral = true) (shallow : j.depth ≤ nestingLimit) :
    sampleFromSliceWithin (utf8 (text f j)) = some j := by
  rw [sampleFromSliceWithin, sampleFromSlice_integral f h]
  exact Option.filter_some_pos (by simpa using shallow)

theorem sampleFromSliceWithin_deep (h : j.integral = true) (deep : nestingLimit < j.depth) :
    sampleFromSliceWithin (utf8 (text f j)) = none := by
  rw [sampleFromSliceWithin, sampleFromSlice_integral f h]
  exact Option.filter_some_neg (by simpa using deep)

end

def brackets : Nat → Json
  | 0 => .array []
  | n + 1 => .array [brackets n]

theorem depth_brackets (n : Nat) : (brackets n).depth = n + 1 := by
  induction n with
  | zero => rfl
  | succ n ih => simp only [brackets, depth, depthElems, ih, Nat.max_zero]

theorem integral_brackets (n : Nat) : (brackets n).integral = true := by
  induction n with
  | zero => rfl
  | succ n ih => simp only [brackets, integral, integralElems, ih, Bool.and_true]

end GitAgentic.Json
