import GitAgentic.Core.Approval
import GitAgentic.Data.SplitOnce

/-! What a token is good for: the key, the commit, the user and the time it was made for,
and nothing else. -/
namespace GitAgentic

/- Texts and their bytes. -/

theorem utf8_injective : Function.Injective utf8 := by
  intro cs ds same
  have bytes : (String.ofList cs).toByteArray = (String.ofList ds).toByteArray :=
    congrArg List.toByteArray same
  exact Platform.toList_ofList_inj (String.toByteArray_inj.mp bytes)

theorem decimal_toList (n : Nat) : (decimal n).toList = Nat.toDigits 10 n := String.toList_ofList

theorem decimal_injective : Function.Injective decimal := by
  intro m n same
  have digits := congrArg String.toList same
  rw [decimal_toList, decimal_toList] at digits
  have back := congrArg (Nat.ofDigitChars 10 · 0) digits
  simpa only [Nat.ofDigitChars_ten_toDigits] using back

theorem digit_of_decimal {n : Nat} {c : Char} (mem : c ∈ Nat.toDigits 10 n) : c.isDigit = true :=
  Nat.isDigit_of_mem_toDigits (by decide) (by decide) mem

theorem colon_notMem_decimal (n : Nat) : ':' ∉ Nat.toDigits 10 n := by
  intro mem
  have digit := digit_of_decimal mem
  revert digit
  decide

theorem signingInput_inj {commitHash commitHash' : String} {uid uid' : UInt32} {t t' : UInt64}
    (same : signingInput commitHash uid t = signingInput commitHash' uid' t') :
    commitHash = commitHash' ∧ uid = uid' ∧ t = t' := by
  have chars := utf8_injective same
  simp only [String.toList_append, decimal_toList] at chars
  have colon : ":".toList = [':'] := rfl
  rw [colon, List.append_assoc, List.append_assoc _ [':'] (Nat.toDigits 10 t'.toNat)] at chars
  obtain ⟨front, time⟩ := splitLast_inj (colon_notMem_decimal _) (colon_notMem_decimal _) chars
  rw [List.append_assoc, List.append_assoc _ [':'] (Nat.toDigits 10 uid'.toNat)] at front
  obtain ⟨commit, user⟩ := splitLast_inj (colon_notMem_decimal _) (colon_notMem_decimal _) front
  have commits := List.append_cancel_left commit
  refine ⟨String.toList_inj.mp commits, UInt32.toNat_inj.mp ?_, UInt64.toNat_inj.mp ?_⟩
  · exact decimal_injective (String.toList_inj.mp (by rw [decimal_toList, decimal_toList, user]))
  · exact decimal_injective (String.toList_inj.mp (by rw [decimal_toList, decimal_toList, time]))

/- Reading a printed token back. -/

theorem splitOnceColon_append {before after : List Char} (plain : ':' ∉ before) :
    splitOnceColon (before ++ ':' :: after) = some (before, after) := by
  have other : ∀ c ∈ before, decide (c ≠ ':') = true := by
    intro c mem
    have apart : c ≠ ':' := fun same => plain (same ▸ mem)
    exact decide_eq_true apart
  rw [splitOnceColon, List.dropWhile_append_of_pos other, List.takeWhile_append_of_pos other]
  simp

theorem parseU64_of_digits {s : String} (some_ : s.toList ≠ [])
    (digits : s.toList.all Char.isDigit = true) :
    parseU64 s = if Nat.ofDigitChars 10 s.toList 0 < 2 ^ 64 then
      some (Nat.ofDigitChars 10 s.toList 0).toUInt64 else none := by
  have unsigned : ∀ rest, s.toList ≠ '+' :: rest := by
    intro rest same
    rw [same] at digits
    simp at digits
  have plain : ¬ (s.toList = [] ∨ ¬ s.toList.all Char.isDigit) := by simpa [some_] using digits
  simp only [parseU64]
  rw [if_neg plain]

theorem parseU64_decimal (t : UInt64) : parseU64 (decimal t.toNat) = some t := by
  rw [parseU64_of_digits, decimal_toList, Nat.ofDigitChars_ten_toDigits, if_pos t.toNat_lt]
  · simp
  · rw [decimal_toList]
    exact Nat.toDigits_ne_nil
  · rw [decimal_toList]
    exact List.all_eq_true.mpr (fun c mem => digit_of_decimal mem)

theorem toNat_saturatingSub (a b : UInt64) : (saturatingSub a b).toNat = a.toNat - b.toNat := by
  unfold saturatingSub
  split
  · rename_i le
    have below : a.toNat ≤ b.toNat := UInt64.le_iff_toNat_le.mp le
    rw [Nat.sub_eq_zero_of_le below]
    rfl
  · rename_i more
    have above : b ≤ a := UInt64.le_of_lt (UInt64.not_le.mp more)
    exact UInt64.toNat_sub_of_le a b above

theorem delta_le_iff (now t : UInt64) :
    max (saturatingSub now t) (saturatingSub t now) ≤ approvalTokenTtlSeconds ↔
      |(now.toNat : ℤ) - t.toNat| ≤ approvalTokenTtlSeconds.toNat := by
  have largest : (max (saturatingSub now t) (saturatingSub t now)).toNat =
      max (now.toNat - t.toNat) (t.toNat - now.toNat) := by
    rw [← toNat_saturatingSub, ← toNat_saturatingSub, max_def]
    show UInt64.toNat (if _ then _ else _) = _
    simp only [UInt64.le_iff_toNat_le]
    exact apply_ite UInt64.toNat _ _ _
  rw [UInt64.le_iff_toNat_le, largest, abs_le]
  omega

/- The parts of a token, as the check reads them. -/

/-- The timestamp and the tag that a token carries, if it is well formed. -/
def tokenParts (token : String) : Option (UInt64 × Bytes) := do
  let (ts, hexTag) ← splitOnceColon token.toList
  let timestamp ← parseU64 (String.ofList ts)
  let providedTag ← Refs.hexDecode hexTag
  if providedTag.length ≠ 32 then none else some (timestamp, providedTag)

section

variable {hmac : Hmac}

theorem verifyToken_parts (key : ApprovalKey) (commitHash : String) (uid : UInt32) (token : String)
    (now : UInt64) : verifyToken hmac key commitHash uid token now =
      match tokenParts token with
      | none => .error .malformed
      | some (t, provided) =>
        if max (saturatingSub now t) (saturatingSub t now) > approvalTokenTtlSeconds then
          .error (.expired approvalTokenTtlSeconds)
        else if provided = tag hmac key (toAsciiLowercase commitHash) uid t then .ok ()
        else .error .invalidSignature := by
  unfold verifyToken tokenParts
  rcases splitOnceColon token.toList with _ | ⟨ts, hexTag⟩
  · rfl
  cases time : parseU64 (String.ofList ts) with
  | none =>
    simp only [Option.elim_some, Option.bind_eq_bind, Option.bind_some, pure_bind, time]
    rfl
  | some t =>
    cases decoded : Refs.hexDecode hexTag with
    | none =>
      simp only [Option.elim_some, Option.bind_eq_bind, Option.bind_some, pure_bind, time, decoded]
      rfl
    | some provided =>
      simp only [Option.elim_some, Option.bind_eq_bind, Option.bind_some, pure_bind, time, decoded]
      by_cases width : provided.length ≠ 32
      · simp only [if_pos width]
        rfl
      · simp only [if_neg width]
        split
        · rfl
        · rfl

theorem verifyToken_eq_ok_iff (key : ApprovalKey) (commitHash : String) (uid : UInt32) (token : String)
    (now : UInt64) : verifyToken hmac key commitHash uid token now = .ok () ↔
      ∃ t provided, tokenParts token = some (t, provided) ∧
        |(now.toNat : ℤ) - t.toNat| ≤ approvalTokenTtlSeconds.toNat ∧
        provided = tag hmac key (toAsciiLowercase commitHash) uid t := by
  rw [verifyToken_parts]
  cases parts : tokenParts token with
  | none => simp
  | some found =>
    obtain ⟨t, provided⟩ := found
    by_cases late : max (saturatingSub now t) (saturatingSub t now) > approvalTokenTtlSeconds
    · simp only [if_pos late]
      constructor
      · intro ok
        cases ok
      · rintro ⟨_, _, ⟨⟩, near, _⟩
        exact absurd ((delta_le_iff now t).mpr near) (UInt64.not_le.mpr late)
    · simp only [if_neg late]
      have near := (delta_le_iff now t).mp (UInt64.not_lt.mp late)
      constructor
      · intro ok
        split at ok
        · rename_i same
          exact ⟨t, provided, rfl, near, same⟩
        · cases ok
      · rintro ⟨_, _, ⟨⟩, _, same⟩
        exact if_pos same

theorem tokenParts_generateToken (width : ∀ key message, (hmac key message).length = 32)
    (key : ApprovalKey) (commitHash : String) (uid : UInt32) (t : UInt64) :
    tokenParts (generateToken hmac key commitHash uid t) =
      some (t, tag hmac key (toAsciiLowercase commitHash) uid t) := by
  have chars : (generateToken hmac key commitHash uid t).toList =
      Nat.toDigits 10 t.toNat ++
        ':' :: (tag hmac key (toAsciiLowercase commitHash) uid t).flatMap Platform.hexByte := by
    simp only [generateToken, String.toList_append, decimal_toList, String.toList_ofList,
      List.append_assoc]
    rfl
  have time : parseU64 (String.ofList (Nat.toDigits 10 t.toNat)) = some t := parseU64_decimal t
  have whole : (tag hmac key (toAsciiLowercase commitHash) uid t).length = 32 := width _ _
  simp [tokenParts, chars, splitOnceColon_append (colon_notMem_decimal _), time,
    Refs.hexDecode_flatMap, whole]

/-- No other key and message have this tag. -/
def Hmac.Unique (hmac : Hmac) (key message : Bytes) : Prop :=
  ∀ key' message', hmac key' message' = hmac key message → key' = key ∧ message' = message

theorem ApprovalKey.ext_bytes {key key' : ApprovalKey} (same : key.bytes = key'.bytes) : key = key' := by
  cases key
  cases key'
  cases same
  rfl

theorem tag_inj {key key' : ApprovalKey} {commitHash commitHash' : String} {uid uid' : UInt32}
    {t t' : UInt64} (unique : hmac.Unique key.bytes (signingInput commitHash uid t))
    (same : tag hmac key' commitHash' uid' t' = tag hmac key commitHash uid t) :
    key' = key ∧ commitHash' = commitHash ∧ uid' = uid ∧ t' = t := by
  obtain ⟨keys, inputs⟩ := unique _ _ same
  exact ⟨ApprovalKey.ext_bytes keys, signingInput_inj inputs⟩

/-- A token passes for the key, the commit up to the case of its letters and the user it was
made for, inside the window, and nowhere else; and whatever token passes, its tag is the one
of what it passes for at its own time, and of nothing else. -/
theorem token_binds (width : ∀ key message, (hmac key message).length = 32) :
    (∀ (k k' : ApprovalKey) (h h' : String) (u u' : UInt32) (t now : UInt64),
      hmac.Unique k.bytes (signingInput (toAsciiLowercase h) u t) →
      (verifyToken hmac k' h' u' (generateToken hmac k h u t) now = .ok () ↔
        k = k' ∧ u = u' ∧ toAsciiLowercase h = toAsciiLowercase h' ∧
          |(now.toNat : ℤ) - t.toNat| ≤ approvalTokenTtlSeconds.toNat)) ∧
    ∀ (k' : ApprovalKey) (h' : String) (u' : UInt32) (token : String) (now : UInt64),
      verifyToken hmac k' h' u' token now = .ok () →
      ∃ t provided, tokenParts token = some (t, provided) ∧
        provided = tag hmac k' (toAsciiLowercase h') u' t ∧
        (hmac.Unique k'.bytes (signingInput (toAsciiLowercase h') u' t) →
          ∀ (k : ApprovalKey) (h : String) (u : UInt32) (t₁ : UInt64), tag hmac k h u t₁ = provided →
            k = k' ∧ h = toAsciiLowercase h' ∧ u = u' ∧ t₁ = t) := by
  constructor
  · intro k k' h h' u u' t now unique
    rw [verifyToken_eq_ok_iff, tokenParts_generateToken width]
    constructor
    · rintro ⟨_, _, ⟨⟩, near, same⟩
      obtain ⟨keys, commits, users, _⟩ := tag_inj unique same.symm
      exact ⟨keys.symm, users.symm, commits.symm, near⟩
    · rintro ⟨rfl, rfl, commits, near⟩
      exact ⟨t, _, rfl, near, by rw [commits]⟩
  · intro k' h' u' token now ok
    obtain ⟨t, provided, parts, _, same⟩ := (verifyToken_eq_ok_iff k' h' u' token now).mp ok
    refine ⟨t, provided, parts, same, fun unique k h u t₁ carried => ?_⟩
    exact tag_inj unique (carried.trans same)

end

def sampleKey : ApprovalKey := { bytes := List.replicate 32 7, length := List.length_replicate }

/-- All messages but one have the same tag. -/
def sampleHmac : Hmac := fun key message =>
  if key = sampleKey.bytes ∧ message = signingInput "ab" 7 100 then List.replicate 32 1
  else List.replicate 32 0

theorem token_binds_sample :
    verifyToken sampleHmac sampleKey "aB" 7 (generateToken sampleHmac sampleKey "Ab" 7 100) 400 = .ok () := by
  have width : ∀ key message, (sampleHmac key message).length = 32 := by
    intro key message
    unfold sampleHmac
    split
    · exact List.length_replicate
    · exact List.length_replicate
  have unique : sampleHmac.Unique sampleKey.bytes (signingInput (toAsciiLowercase "Ab") 7 100) := by
    have lower : toAsciiLowercase "Ab" = "ab" := by decide
    rw [lower]
    intro key message same
    by_contra other
    simp [sampleHmac, other] at same
  exact ((token_binds width).1 sampleKey sampleKey "Ab" "aB" 7 7 100 400 unique).mpr
    ⟨rfl, rfl, by decide, by decide⟩

end GitAgentic
