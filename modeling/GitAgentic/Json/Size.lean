import GitAgentic.Json.Value

/-! How many bytes the compact text of a value takes. -/
namespace GitAgentic.Json

def quotedSize (s : String) : Nat := (utf8 (quote s)).length

section

variable (f64 : UInt64 → List Char)

def size (j : Json) : Nat := (utf8 (text f64 j)).length

@[simp] theorem utf8_nil : utf8 [] = [] := rfl

theorem length_utf8_append (cs ds : List Char) :
    (utf8 (cs ++ ds)).length = (utf8 cs).length + (utf8 ds).length := by
  rw [utf8_append, List.length_append]

theorem length_utf8_cons {c : Char} (ascii : c.utf8Size = 1) (cs : List Char) :
    (utf8 (c :: cs)).length = (utf8 cs).length + 1 := by
  have one : (String.utf8EncodeChar c).length = 1 := by rw [String.length_utf8EncodeChar, ascii]
  rw [utf8, List.flatMap_cons, List.length_append, one, Nat.add_comm]
  rfl

theorem size_bool (b : Bool) : size f64 (.bool b) = if b then 4 else 5 := by
  cases b <;> rfl

theorem size_string (s : String) : size f64 (.string s) = quotedSize s := rfl

theorem length_textElems (xs : List Json) :
    (utf8 (textElems f64 false xs)).length = (xs.map (fun x => size f64 x + 1)).sum + 1 := by
  induction xs with
  | nil => rfl
  | cons x xs ih =>
    rw [textElems, length_utf8_cons (by decide), length_utf8_append, ih, List.map_cons, List.sum_cons]
    unfold size
    omega

theorem size_array_nil : size f64 (.array []) = 2 := rfl

theorem size_array_cons (x : Json) (xs : List Json) :
    size f64 (.array (x :: xs)) = size f64 x + (xs.map (fun x => size f64 x + 1)).sum + 2 := by
  rw [size, text, textElems, length_utf8_cons (by decide), length_utf8_append, length_textElems, size]
  omega

theorem size_array (xs : List Json) :
    size f64 (.array xs) = (xs.map (fun x => size f64 x + 1)).sum + if xs = [] then 2 else 1 := by
  cases xs with
  | nil => exact size_array_nil f64
  | cons x xs =>
    rw [size_array_cons, if_neg (List.cons_ne_nil x xs), List.map_cons, List.sum_cons]
    omega

def memberSize (m : String × Json) : Nat := quotedSize m.1 + size f64 m.2 + 1

theorem length_textMembers (ms : List (String × Json)) :
    (utf8 (textMembers f64 false ms)).length = (ms.map (fun m => memberSize f64 m + 1)).sum + 1 := by
  induction ms with
  | nil => rfl
  | cons m ms ih =>
    obtain ⟨k, x⟩ := m
    rw [textMembers, length_utf8_cons (by decide), length_utf8_append,
      length_utf8_cons (by decide), length_utf8_append, ih, List.map_cons, List.sum_cons]
    have own : memberSize f64 (k, x) = (utf8 (quote k)).length + (utf8 (text f64 x)).length + 1 := rfl
    omega

theorem size_object_cons (m : String × Json) (ms : List (String × Json)) :
    size f64 (.object (m :: ms)) =
      memberSize f64 m + (ms.map (fun m => memberSize f64 m + 1)).sum + 2 := by
  obtain ⟨k, x⟩ := m
  rw [size, text, textMembers, length_utf8_cons (by decide), length_utf8_append,
    length_utf8_cons (by decide), length_utf8_append, length_textMembers]
  have own : memberSize f64 (k, x) = (utf8 (quote k)).length + (utf8 (text f64 x)).length + 1 := rfl
  omega

end

def isPlain (c : Char) : Bool := 32 ≤ c.toNat && c.toNat < 127 && c != '"' && c != '\\'

theorem escapeChar_of_plain {c : Char} (plain : isPlain c = true) :
    escapeChar c = [c] ∧ c.utf8Size = 1 := by
  simp only [isPlain, Bool.and_eq_true, decide_eq_true_eq, bne_iff_ne] at plain
  obtain ⟨⟨⟨printable, ascii⟩, quoteMark⟩, backslash⟩ := plain
  have other : ∀ d : Char, d.toNat < 32 → c ≠ d := by
    rintro d control rfl
    omega
  constructor
  · unfold escapeChar
    rw [if_neg quoteMark, if_neg backslash, if_neg (other _ (by decide)), if_neg (other _ (by decide)),
      if_neg (other _ (by decide)), if_neg (other _ (by decide)), if_neg (other _ (by decide)),
      if_neg (by omega)]
  · have small : c.val ≤ 127 := by
      rw [UInt32.le_iff_toNat_le]
      exact Nat.le_of_lt ascii
    exact if_pos small

theorem length_escaped_of_plain {cs : List Char} (plain : ∀ c ∈ cs, isPlain c = true) :
    (utf8 (cs.flatMap escapeChar ++ ['"'])).length = cs.length + 1 := by
  induction cs with
  | nil => rfl
  | cons c cs ih =>
    obtain ⟨same, one⟩ := escapeChar_of_plain (plain c List.mem_cons_self)
    rw [List.flatMap_cons, same, List.append_assoc, List.singleton_append, length_utf8_cons one,
      ih (fun d mem => plain d (List.mem_cons_of_mem c mem)), List.length_cons]

theorem quotedSize_of_plain {s : String} (plain : s.toList.all isPlain = true) :
    quotedSize s = s.toList.length + 2 := by
  rw [quotedSize, quote, length_utf8_cons (by decide),
    length_escaped_of_plain (List.all_eq_true.mp plain)]

theorem quotedSize_ofList {cs : List Char} (plain : cs.all isPlain = true) :
    quotedSize (String.ofList cs) = cs.length + 2 := by
  have same : (String.ofList cs).toList = cs := String.toList_ofList
  rw [quotedSize_of_plain (by rwa [same]), same]

theorem quotedSize_eq (s : String) : quotedSize s = (utf8 (s.toList.flatMap escapeChar)).length + 2 := by
  rw [quotedSize, quote, length_utf8_cons (by decide), length_utf8_append]
  rfl

theorem quotedSize_append (s t : String) : quotedSize (s ++ t) + 2 = quotedSize s + quotedSize t := by
  rw [quotedSize_eq, quotedSize_eq, quotedSize_eq, String.toList_append, List.flatMap_append,
    length_utf8_append]
  omega

/-- A colon and a space stand where two texts on their own have a quote each. -/
theorem quotedSize_intercalate (t : String) (ts : List String) :
    quotedSize (": ".intercalate (t :: ts)) = quotedSize t + (ts.map quotedSize).sum := by
  induction ts generalizing t with
  | nil => rw [String.intercalate_singleton, List.map_nil, List.sum_nil, Nat.add_zero]
  | cons u ts ih =>
    have separator : quotedSize ": " = 4 := by rfl
    have first := quotedSize_append t ": "
    have whole := quotedSize_append (t ++ ": ") (": ".intercalate (u :: ts))
    rw [String.intercalate_cons_cons, List.map_cons, List.sum_cons, ← ih u]
    omega

end GitAgentic.Json
