import GitAgentic.Json.Value

/-! A reader for the compact text. It inverts the writer on every value whose
floating point literals it can read back, so compact text is unambiguous. -/
namespace GitAgentic.Json

def hexVal (c : Char) : Nat :=
  if c.isDigit then c.toNat - 48 else c.toNat - 87

/-- The text after an opening quote, up to the closing one. -/
def readString : List Char → Option (List Char × List Char)
  | [] => none
  | '"' :: rest => some ([], rest)
  | '\\' :: 'u' :: '0' :: '0' :: h :: l :: rest =>
    (readString rest).map (fun p => (Char.ofNat (16 * hexVal h + hexVal l) :: p.1, p.2))
  | '\\' :: 'b' :: rest => (readString rest).map (fun p => ('\x08' :: p.1, p.2))
  | '\\' :: 't' :: rest => (readString rest).map (fun p => ('\t' :: p.1, p.2))
  | '\\' :: 'n' :: rest => (readString rest).map (fun p => ('\n' :: p.1, p.2))
  | '\\' :: 'f' :: rest => (readString rest).map (fun p => ('\x0c' :: p.1, p.2))
  | '\\' :: 'r' :: rest => (readString rest).map (fun p => ('\r' :: p.1, p.2))
  | '\\' :: '"' :: rest => (readString rest).map (fun p => ('"' :: p.1, p.2))
  | '\\' :: '\\' :: rest => (readString rest).map (fun p => ('\\' :: p.1, p.2))
  | c :: rest => if c = '\\' then none else (readString rest).map (fun p => (c :: p.1, p.2))

/-- A float literal here is its bits in decimal, then the fraction `.0`. -/
def sampleF64 (bits : UInt64) : List Char := Nat.toDigits 10 bits.toNat ++ ['.', '0']

def readDigits (cs : List Char) : Option (Nat × List Char) :=
  match cs.span Char.isDigit with
  | ([], _) => none
  | (ds, rest) => some (Nat.ofDigitChars 10 ds 0, rest)

def readNumber : List Char → Option (Number × List Char)
  | '-' :: cs => (readDigits cs).map (fun p => (.negInt (Fin.ofNat (2 ^ 63) (p.1 - 1)), p.2))
  | cs =>
    match readDigits cs with
    | some (n, '.' :: '0' :: rest) => some (.float (UInt64.ofNat n), rest)
    | some (n, rest) => some (.posInt (UInt64.ofNat n), rest)
    | none => none

def skipComma : Bool → List Char → Option (List Char)
  | true, cs => some cs
  | false, ',' :: cs => some cs
  | false, _ => none

mutual

def read : Nat → List Char → Option (Json × List Char)
  | 0, _ => none
  | _ + 1, [] => none
  | fuel + 1, c :: cs =>
    if c = 'n' then
      if cs.take 3 = ['u', 'l', 'l'] then some (.null, cs.drop 3) else none
    else if c = 't' then
      if cs.take 3 = ['r', 'u', 'e'] then some (.bool true, cs.drop 3) else none
    else if c = 'f' then
      if cs.take 4 = ['a', 'l', 's', 'e'] then some (.bool false, cs.drop 4) else none
    else if c = '"' then (readString cs).map (fun p => (.string (String.ofList p.1), p.2))
    else if c = '[' then (readElems fuel true cs).map (fun p => (.array p.1, p.2))
    else if c = '{' then (readMembers fuel true cs).map (fun p => (.object p.1, p.2))
    else (readNumber (c :: cs)).map (fun p => (.number p.1, p.2))

def readElems : Nat → Bool → List Char → Option (List Json × List Char)
  | 0, _, _ => none
  | _ + 1, _, [] => none
  | fuel + 1, first, c :: cs =>
    if c = ']' then some ([], cs)
    else do
      let cs ← skipComma first (c :: cs)
      let (x, rest) ← read fuel cs
      let (xs, rest) ← readElems fuel false rest
      some (x :: xs, rest)

def readMembers : Nat → Bool → List Char → Option (List (String × Json) × List Char)
  | 0, _, _ => none
  | _ + 1, _, [] => none
  | fuel + 1, first, c :: cs =>
    if c = '}' then some ([], cs)
    else do
      let cs ← skipComma first (c :: cs)
      match cs with
      | '"' :: cs =>
        let (k, rest) ← readString cs
        match rest with
        | ':' :: rest =>
          let (x, rest) ← read fuel rest
          let (ms, rest) ← readMembers fuel false rest
          some ((String.ofList k, x) :: ms, rest)
        | _ => none
      | _ => none

end

example : (read 9 (text sampleF64 (.object [("a", .array [.null, .string "b\n"])]))).map Prod.fst =
    some (.object [("a", .array [.null, .string "b\n"])]) := by decide

def Stops : List Char → Prop
  | [] => True
  | c :: _ => c.isDigit = false ∧ c ≠ '.'

theorem readDigits_toDigits (n : Nat) {r : List Char} (stop : ∀ c ∈ r.head?, c.isDigit = false) :
    readDigits (Nat.toDigits 10 n ++ r) = some (n, r) := by
  have digits : ∀ c ∈ Nat.toDigits 10 n, c.isDigit = true :=
    fun c hc => Nat.isDigit_of_mem_toDigits (by decide) (by decide) hc
  have tail : r.takeWhile Char.isDigit = [] ∧ r.dropWhile Char.isDigit = r := by
    cases r with
    | nil => exact ⟨rfl, rfl⟩
    | cons c cs =>
      have h := stop c rfl
      exact ⟨by simp [h], by simp [h]⟩
  unfold readDigits
  rw [List.span_eq_takeWhile_dropWhile, List.takeWhile_append_of_pos digits,
    List.dropWhile_append_of_pos digits, tail.1, tail.2, List.append_nil]
  cases h : Nat.toDigits 10 n with
  | nil => exact absurd h Nat.toDigits_ne_nil
  | cons d ds => simp only [← h, Nat.ofDigitChars_ten_toDigits]

theorem toDigits_head (n : Nat) : ∃ d ds, Nat.toDigits 10 n = d :: ds ∧ d.isDigit = true := by
  cases h : Nat.toDigits 10 n with
  | nil => exact absurd h Nat.toDigits_ne_nil
  | cons d ds =>
    exact ⟨d, ds, rfl, Nat.isDigit_of_mem_toDigits (by decide) (by decide) (h ▸ List.mem_cons_self)⟩

theorem readNumber_digits (n : Nat) (r : List Char) :
    readNumber (Nat.toDigits 10 n ++ r) =
      match readDigits (Nat.toDigits 10 n ++ r) with
      | some (n, '.' :: '0' :: rest) => some (.float (UInt64.ofNat n), rest)
      | some (n, rest) => some (.posInt (UInt64.ofNat n), rest)
      | none => none := by
  obtain ⟨d, ds, hd, digit⟩ := toDigits_head n
  rw [hd, List.cons_append, readNumber]
  intro rest h
  rw [(List.cons.inj h).1] at digit
  revert digit
  decide

theorem readNumber_text (n : Number) {r : List Char} (stop : Stops r) :
    readNumber (textNumber sampleF64 n ++ r) = some (n, r) := by
  have digit : ∀ c ∈ r.head?, c.isDigit = false := by
    cases r with
    | nil => simp
    | cons c cs => simpa using stop.1
  cases n with
  | posInt n =>
    simp only [textNumber, readNumber_digits, readDigits_toDigits n.toNat digit]
    split
    · rename_i h
      obtain ⟨rfl, rfl⟩ := Prod.mk.inj (Option.some.inj h)
      exact absurd rfl stop.2
    · rename_i h
      obtain ⟨rfl, rfl⟩ := Prod.mk.inj (Option.some.inj h)
      simp
    · contradiction
  | negInt m =>
    simp only [textNumber, List.cons_append, readNumber, readDigits_toDigits _ digit,
      Option.map_some, Nat.add_sub_cancel]
    congr
    exact Fin.ext (Nat.mod_eq_of_lt m.isLt)
  | float bits =>
    have dot : ∀ c ∈ ('.' :: '0' :: r).head?, c.isDigit = false := by simp
    simp only [textNumber, sampleF64, List.append_assoc, List.cons_append, List.nil_append,
      readNumber_digits, readDigits_toDigits bits.toNat dot]
    simp

theorem hexVal_hexDigit : ∀ n < 16, hexVal (hexDigit n) = n := by decide

theorem readString_escape (c : Char) (rest : List Char) :
    readString (escapeChar c ++ rest) = (readString rest).map (fun p => (c :: p.1, p.2)) := by
  unfold escapeChar
  by_cases quoteMark : c = '"'
  · subst quoteMark; simp [readString]
  by_cases backslash : c = '\\'
  · subst backslash; simp [readString]
  by_cases backspace : c = '\x08'
  · subst backspace; simp [readString]
  by_cases tab : c = '\t'
  · subst tab; simp [readString]
  by_cases newline : c = '\n'
  · subst newline; simp [readString]
  by_cases formFeed : c = '\x0c'
  · subst formFeed; simp [readString]
  by_cases carriage : c = '\r'
  · subst carriage; simp [readString]
  simp only [quoteMark, backslash, backspace, tab, newline, formFeed, carriage, if_false]
  by_cases control : c.toNat < 32
  · have hi := hexVal_hexDigit (c.toNat / 16) (by omega)
    have lo := hexVal_hexDigit (c.toNat % 16) (by omega)
    have whole : 16 * (c.toNat / 16) + c.toNat % 16 = c.toNat := by omega
    simp only [control, if_true, List.cons_append, List.nil_append, readString, hi, lo, whole,
      Char.ofNat_toNat]
  · simp only [control, if_false, List.cons_append, List.nil_append]
    rw [readString.eq_def]
    split <;> simp_all

theorem readString_quote (s : String) (rest : List Char) :
    readString (s.toList.flatMap escapeChar ++ '"' :: rest) = some (s.toList, rest) := by
  induction s.toList with
  | nil => simp [readString]
  | cons c cs ih =>
    rw [List.flatMap_cons, List.append_assoc, readString_escape, ih]
    rfl

/- The recursion depth that reading back a value takes. -/
mutual

def cost : Json → Nat
  | .array xs => 1 + costElems xs
  | .object ms => 1 + costMembers ms
  | _ => 1

def costElems : List Json → Nat
  | [] => 1
  | x :: xs => 1 + cost x + costElems xs

def costMembers : List (String × Json) → Nat
  | [] => 1
  | (_, x) :: ms => 1 + cost x + costMembers ms

end

theorem stops_elems (xs : List Json) (r : List Char) : Stops (textElems sampleF64 false xs ++ r) := by
  cases xs <;> exact ⟨rfl, by decide⟩

theorem stops_members (ms : List (String × Json)) (r : List Char) :
    Stops (textMembers sampleF64 false ms ++ r) := by
  cases ms <;> exact ⟨rfl, by decide⟩

theorem text_head (j : Json) : ∃ c cs, text sampleF64 j = c :: cs ∧ c ≠ ']' := by
  have digits (n : Nat) : ∃ c cs, Nat.toDigits 10 n = c :: cs ∧ c ≠ ']' := by
    obtain ⟨d, ds, hd, digit⟩ := toDigits_head n
    refine ⟨d, ds, hd, ?_⟩
    rintro rfl
    revert digit
    decide
  cases j with
  | null => exact ⟨_, _, rfl, by decide⟩
  | bool b => cases b <;> exact ⟨_, _, rfl, by decide⟩
  | string s => exact ⟨_, _, rfl, by decide⟩
  | array xs => exact ⟨_, _, rfl, by decide⟩
  | object ms => exact ⟨_, _, rfl, by decide⟩
  | number n =>
    cases n with
    | posInt n => exact digits n.toNat
    | negInt m => exact ⟨_, _, rfl, by decide⟩
    | float bits =>
      obtain ⟨c, cs, hc, hne⟩ := digits bits.toNat
      exact ⟨c, cs ++ ['.', '0'], by simp [text, textNumber, sampleF64, hc], hne⟩

theorem read_number (n : Number) (fuel : Nat) {r : List Char} (stop : Stops r) :
    read (fuel + 1) (textNumber sampleF64 n ++ r) = some (.number n, r) := by
  have parsed := readNumber_text n stop
  have head : ∃ c cs, textNumber sampleF64 n = c :: cs ∧ (c = '-' ∨ c.isDigit = true) := by
    cases n with
    | posInt n =>
      obtain ⟨d, ds, hd, digit⟩ := toDigits_head n.toNat
      exact ⟨d, ds, hd, Or.inr digit⟩
    | negInt m => exact ⟨_, _, rfl, Or.inl rfl⟩
    | float bits =>
      obtain ⟨d, ds, hd, digit⟩ := toDigits_head bits.toNat
      exact ⟨d, ds ++ ['.', '0'], by simp [textNumber, sampleF64, hd], Or.inr digit⟩
  obtain ⟨c, cs, hc, kind⟩ := head
  have other : c ≠ 'n' ∧ c ≠ 't' ∧ c ≠ 'f' ∧ c ≠ '"' ∧ c ≠ '[' ∧ c ≠ '{' := by
    rcases kind with rfl | digit
    · decide
    · refine ⟨?_, ?_, ?_, ?_, ?_, ?_⟩ <;> (rintro rfl; revert digit; decide)
  rw [hc, List.cons_append] at parsed ⊢
  simp only [read, other.1, other.2.1, other.2.2.1, other.2.2.2.1, other.2.2.2.2.1,
    other.2.2.2.2.2, if_false, parsed, Option.map_some]

mutual

theorem read_text (j : Json) (fuel : Nat) (r : List Char) (enough : cost j ≤ fuel) (stop : Stops r) :
    read fuel (text sampleF64 j ++ r) = some (j, r) := by
  match j, fuel with
  | j, 0 => cases j <;> simp [cost] at enough
  | .null, fuel + 1 => simp [text, read]
  | .bool true, fuel + 1 => simp [text, read]
  | .bool false, fuel + 1 => simp [text, read]
  | .number n, fuel + 1 => exact read_number n fuel stop
  | .string s, fuel + 1 =>
    simp only [text, quote, List.cons_append, List.append_assoc, List.nil_append, read,
      readString_quote, Option.map_some, String.ofList_toList]
    rfl
  | .array xs, fuel + 1 =>
    have elems := read_elems xs true fuel r (by simp only [cost] at enough; omega)
    simp only [text, List.cons_append, read, elems, Option.map_some]
    rfl
  | .object ms, fuel + 1 =>
    have members := read_members ms true fuel r (by simp only [cost] at enough; omega)
    simp only [text, List.cons_append, read, members, Option.map_some]
    rfl

theorem read_elems (xs : List Json) (first : Bool) (fuel : Nat) (r : List Char)
    (enough : costElems xs ≤ fuel) :
    readElems fuel first (textElems sampleF64 first xs ++ r) = some (xs, r) := by
  match xs, fuel with
  | xs, 0 => cases xs <;> simp [costElems] at enough
  | [], fuel + 1 => cases first <;> rfl
  | x :: xs, fuel + 1 =>
    simp only [costElems] at enough
    have head := read_text x fuel (textElems sampleF64 false xs ++ r) (by omega) (stops_elems xs r)
    have tail := read_elems xs false fuel r (by omega)
    cases first with
    | true =>
      obtain ⟨c, cs, hc, hne⟩ := text_head x
      simp only [textElems, hc, List.cons_append, List.append_assoc] at head ⊢
      simp [readElems, skipComma, hne, head, tail]
    | false => simp [textElems, readElems, skipComma, head, tail]

theorem read_members (ms : List (String × Json)) (first : Bool) (fuel : Nat) (r : List Char)
    (enough : costMembers ms ≤ fuel) :
    readMembers fuel first (textMembers sampleF64 first ms ++ r) = some (ms, r) := by
  match ms, fuel with
  | ms, 0 => cases ms <;> simp [costMembers] at enough
  | [], fuel + 1 => cases first <;> rfl
  | (k, x) :: ms, fuel + 1 =>
    simp only [costMembers] at enough
    have head := read_text x fuel (textMembers sampleF64 false ms ++ r) (by omega)
      (stops_members ms r)
    have tail := read_members ms false fuel r (by omega)
    cases first <;>
      simp [textMembers, quote, readMembers, skipComma, readString_quote, head, tail]

end

mutual

theorem cost_le_text (j : Json) : cost j ≤ 2 * (text sampleF64 j).length := by
  match j with
  | .null | .bool true | .bool false => simp [cost, text]
  | .string s => simp only [cost, text, quote, List.length_cons]; omega
  | .number n =>
    have nonempty : textNumber sampleF64 n ≠ [] := by
      cases n <;> simp [textNumber, sampleF64, Nat.toDigits_ne_nil]
    have h := List.length_pos_iff.mpr nonempty
    simp only [cost, text]
    omega
  | .array xs =>
    have h := cost_le_elems xs true
    simp only [cost, text, List.length_cons, if_true] at h ⊢
    omega
  | .object ms =>
    have h := cost_le_members ms true
    simp only [cost, text, List.length_cons, if_true] at h ⊢
    omega

theorem cost_le_elems (xs : List Json) (first : Bool) :
    costElems xs ≤ 2 * (textElems sampleF64 first xs).length + if first then 1 else 0 := by
  match xs with
  | [] => cases first <;> simp [costElems, textElems]
  | x :: xs =>
    have head := cost_le_text x
    have tail := cost_le_elems xs false
    cases first <;>
      simp only [costElems, textElems, List.length_cons, List.length_append, if_true,
        Bool.false_eq_true, if_false] at tail ⊢ <;> omega

theorem cost_le_members (ms : List (String × Json)) (first : Bool) :
    costMembers ms ≤ 2 * (textMembers sampleF64 first ms).length + if first then 1 else 0 := by
  match ms with
  | [] => cases first <;> simp [costMembers, textMembers]
  | (k, x) :: ms =>
    have head := cost_le_text x
    have tail := cost_le_members ms false
    cases first <;>
      simp only [costMembers, textMembers, List.length_cons, List.length_append, if_true,
        Bool.false_eq_true, if_false] at tail ⊢ <;> omega

end

/- Reading consumes at least one character for each node. -/

theorem readString_shorter (cs s rest : List Char) (h : readString cs = some (s, rest)) :
    rest.length < cs.length := by
  induction cs using readString.induct generalizing s rest with
  | case1 => simp [readString] at h
  | case2 tail =>
    simp only [readString, Option.some.injEq, Prod.mk.injEq] at h
    simp [h.2]
  | case11 => simp_all [readString]
  | _ =>
    rename_i ih
    simp_all only [readString, Option.map_eq_some_iff, Prod.mk.injEq, Prod.exists, if_false]
    obtain ⟨t, u, hu, rfl, rfl⟩ := h
    have shorter := ih _ _ hu
    simp only [List.length_cons]
    omega

theorem readDigits_shorter (cs rest : List Char) (n : Nat) (h : readDigits cs = some (n, rest)) :
    rest.length < cs.length := by
  unfold readDigits at h
  rw [List.span_eq_takeWhile_dropWhile] at h
  have split := congrArg List.length (List.takeWhile_append_dropWhile (p := Char.isDigit) (l := cs))
  rw [List.length_append] at split
  cases hd : cs.takeWhile Char.isDigit with
  | nil => simp [hd] at h
  | cons d ds =>
    simp only [hd, Option.some.injEq, Prod.mk.injEq] at h
    rw [hd, h.2, List.length_cons] at split
    omega

theorem readNumber_shorter (cs rest : List Char) (n : Number)
    (h : readNumber cs = some (n, rest)) : rest.length < cs.length := by
  unfold readNumber at h
  split at h
  · rename_i cs
    simp only [Option.map_eq_some_iff, Prod.mk.injEq] at h
    obtain ⟨⟨m, u⟩, hd, _, rfl⟩ := h
    have shorter := readDigits_shorter cs u m hd
    simp only [List.length_cons]
    omega
  · split at h
    · rename_i hd
      simp only [Option.some.injEq, Prod.mk.injEq] at h
      have shorter := readDigits_shorter _ _ _ hd
      simp only [List.length_cons, h.2] at shorter
      omega
    · rename_i hd
      simp only [Option.some.injEq, Prod.mk.injEq] at h
      exact h.2 ▸ readDigits_shorter _ _ _ hd
    · contradiction

theorem skipComma_shorter (first : Bool) (cs ds : List Char) (h : skipComma first cs = some ds) :
    ds.length ≤ cs.length := by
  unfold skipComma at h
  split at h
  · rw [Option.some.inj h]
  · rw [← Option.some.inj h]; exact Nat.le_succ _
  · contradiction

mutual

theorem nodes_read (fuel : Nat) (cs rest : List Char) (j : Json)
    (h : read fuel cs = some (j, rest)) : j.nodes + rest.length ≤ cs.length := by
  match fuel, cs with
  | 0, _ | _ + 1, [] => simp [read] at h
  | fuel + 1, c :: cs =>
    have literal (word : List Char) (v : Json) (one : v.nodes = 1)
        (h : (if cs.take word.length = word then some (v, cs.drop word.length) else none) =
          some (j, rest)) : j.nodes + rest.length ≤ (c :: cs).length := by
      split at h
      · simp only [Option.some.injEq, Prod.mk.injEq] at h
        simp only [← h.1, ← h.2, one, List.length_drop, List.length_cons]
        omega
      · contradiction
    unfold read at h
    split at h
    · exact literal ['u', 'l', 'l'] .null rfl h
    split at h
    · exact literal ['r', 'u', 'e'] (.bool true) rfl h
    split at h
    · exact literal ['a', 'l', 's', 'e'] (.bool false) rfl h
    split at h
    · simp only [Option.map_eq_some_iff, Prod.mk.injEq] at h
      obtain ⟨⟨s, u⟩, hs, rfl, rfl⟩ := h
      have shorter := readString_shorter cs s u hs
      simp only [nodes, List.length_cons]
      omega
    split at h
    · simp only [Option.map_eq_some_iff, Prod.mk.injEq] at h
      obtain ⟨⟨xs, u⟩, hx, rfl, rfl⟩ := h
      have inner := nodes_readElems fuel true cs u xs hx
      simp only [nodes, List.length_cons]
      omega
    split at h
    · simp only [Option.map_eq_some_iff, Prod.mk.injEq] at h
      obtain ⟨⟨ms, u⟩, hm, rfl, rfl⟩ := h
      have inner := nodes_readMembers fuel true cs u ms hm
      simp only [nodes, List.length_cons]
      omega
    · simp only [Option.map_eq_some_iff, Prod.mk.injEq] at h
      obtain ⟨⟨n, u⟩, hn, rfl, rfl⟩ := h
      have shorter := readNumber_shorter (c :: cs) u n hn
      simp only [nodes]
      omega

theorem nodes_readElems (fuel : Nat) (first : Bool) (cs rest : List Char) (xs : List Json)
    (h : readElems fuel first cs = some (xs, rest)) :
    nodesElems xs + rest.length ≤ cs.length := by
  match fuel, cs with
  | 0, _ | _ + 1, [] => simp [readElems] at h
  | fuel + 1, c :: cs =>
    unfold readElems at h
    split at h
    · obtain ⟨rfl, rfl⟩ := Prod.mk.inj (Option.some.inj h)
      simp [nodesElems]
    simp only [Option.bind_eq_bind, Option.bind_eq_some_iff] at h
    obtain ⟨ds, hd, ⟨x, u⟩, hx, ⟨ys, v⟩, hy, he⟩ := h
    obtain ⟨rfl, rfl⟩ := Prod.mk.inj (Option.some.inj he)
    have start := skipComma_shorter first _ ds hd
    have head := nodes_read fuel ds u x hx
    have tail := nodes_readElems fuel false u v ys hy
    simp only [nodesElems]
    omega

theorem nodes_readMembers (fuel : Nat) (first : Bool) (cs rest : List Char)
    (ms : List (String × Json)) (h : readMembers fuel first cs = some (ms, rest)) :
    nodesMembers ms + rest.length ≤ cs.length := by
  match fuel, cs with
  | 0, _ | _ + 1, [] => simp [readMembers] at h
  | fuel + 1, c :: cs =>
    unfold readMembers at h
    split at h
    · obtain ⟨rfl, rfl⟩ := Prod.mk.inj (Option.some.inj h)
      simp [nodesMembers]
    simp only [Option.bind_eq_bind, Option.bind_eq_some_iff] at h
    obtain ⟨ds, hd, h⟩ := h
    have start := skipComma_shorter first _ ds hd
    split at h
    · simp only [Option.bind_eq_some_iff] at h
      obtain ⟨⟨k, u⟩, hk, h⟩ := h
      have name := readString_shorter _ k u hk
      split at h
      · rename_i hu
        simp only [Option.bind_eq_some_iff] at h
        obtain ⟨⟨x, v⟩, hx, ⟨ns, w⟩, hn, he⟩ := h
        obtain ⟨rfl, rfl⟩ := Prod.mk.inj (Option.some.inj he)
        have head := nodes_read fuel _ v x hx
        have tail := nodes_readMembers fuel false v w ns hn
        simp only at hu
        simp only [nodesMembers, hu, List.length_cons] at name start ⊢
        omega
      · contradiction
    · contradiction

end

def sampleFromSlice (b : Bytes) : Option Json := do
  let s ← String.fromUTF8? b.toByteArray
  let (j, rest) ← read (2 * s.toList.length + 1) s.toList
  if rest = [] then some j else none

theorem sampleFromSlice_text (j : Json) : sampleFromSlice (utf8 (text sampleF64 j)) = some j := by
  have decoded : String.fromUTF8? (utf8 (text sampleF64 j)).toByteArray =
      some (String.ofList (text sampleF64 j)) := by
    have valid : (utf8 (text sampleF64 j)).toByteArray.IsValidUTF8 :=
      ByteArray.isValidUTF8_utf8Encode
    exact dif_pos valid
  have parsed := read_text j (2 * (text sampleF64 j).length + 1) []
    (Nat.le_succ_of_le (cost_le_text j)) trivial
  rw [List.append_nil] at parsed
  simp [sampleFromSlice, decoded, parsed]

theorem nodes_sampleFromSlice (b : Bytes) (j : Json) (h : sampleFromSlice b = some j) :
    j.nodes ≤ b.length := by
  simp only [sampleFromSlice, Option.bind_eq_bind, Option.bind_eq_some_iff] at h
  obtain ⟨s, hs, ⟨v, rest⟩, hr, h⟩ := h
  split at h
  · cases Option.some.inj h
    have read := nodes_read _ _ _ _ hr
    have size : (utf8 s.toList).length = b.length := congrArg List.length (utf8_of_fromUtf8 hs)
    have short := length_le_utf8 s.toList
    simp only at read ⊢
    omega
  · contradiction

end GitAgentic.Json
