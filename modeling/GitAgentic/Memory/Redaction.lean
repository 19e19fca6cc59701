import GitAgentic.Data.SplitOnce

/-! The URL of the database as it is shown in logs: what stands between the first colon of
the user info and the first at sign is taken out. A password may hold an at sign itself. -/
namespace GitAgentic

def schemeEnd : List Char := [':', '/', '/']

def userinfoRedacted (userinfo : List Char) : List Char :=
  match splitOnce [':'] userinfo with
  | some (user, _password) => user ++ ":***".toList
  | none => userinfo

/-- Without a scheme nothing of the text is shown, without user info all of it. -/
def redactPasswordInUrl (raw : String) : String :=
  match splitOnce schemeEnd raw.toList with
  | none => "<redacted: unparseable url>"
  | some (scheme, rest) =>
    match splitOnce ['@'] rest with
    | none => raw
    | some (userinfo, hostpart) =>
      String.ofList (scheme ++ (schemeEnd ++ (userinfoRedacted userinfo ++ '@' :: hostpart)))

/-- A URL with a user and a password. -/
def passwordUrl (scheme user password host : String) : String :=
  String.ofList (scheme.toList ++ (schemeEnd ++
    (user.toList ++ ':' :: (password.toList ++ '@' :: host.toList))))

namespace Redaction

/-- The part of a password from its first at sign on, without that sign. -/
def afterAt (password : String) : Option (List Char) :=
  (splitOnce ['@'] password.toList).map Prod.snd

/-- No at sign of the scheme itself is taken for the one that ends the user info. -/
def SchemeClear (scheme : String) : Prop :=
  ∀ before after, splitOnce schemeEnd scheme.toList = some (before, after) → '@' ∉ after

def hostpartOf (password host : String) : List Char :=
  match afterAt password with
  | none => host.toList
  | some shown => shown ++ '@' :: host.toList

theorem splitOnce_password (password host : String) :
    ∃ hidden, splitOnce ['@'] (password.toList ++ '@' :: host.toList) =
      some (hidden, hostpartOf password host) := by
  rw [hostpartOf, afterAt]
  cases found : splitOnce ['@'] password.toList with
  | none =>
    rw [splitOnce_singleton_append (splitOnce_singleton_eq_none_iff.mp found)]
    exact ⟨password.toList ++ [], rfl⟩
  | some parts => exact ⟨parts.1, splitOnce_append_of_some found _⟩

theorem hostpartOf_eq_iff (p q host : String) :
    hostpartOf p host = hostpartOf q host ↔ afterAt p = afterAt q := by
  have longer : ∀ shown : List Char, host.toList ≠ shown ++ '@' :: host.toList := by
    intro shown same
    have lengths := congrArg List.length same
    rw [List.length_append, List.length_cons] at lengths
    omega
  rw [hostpartOf, hostpartOf]
  cases afterAt p with
  | none =>
    cases afterAt q with
    | none => exact iff_of_true rfl rfl
    | some shown => exact iff_of_false (longer shown) (fun impossible => by cases impossible)
  | some shown =>
    cases afterAt q with
    | none => exact iff_of_false (longer shown).symm (fun impossible => by cases impossible)
    | some other => exact List.append_left_inj _ |>.trans Option.some_inj.symm

theorem redact_eq {raw : String} {scheme rest userinfo hostpart : List Char}
    (schemeCut : splitOnce schemeEnd raw.toList = some (scheme, rest))
    (userinfoCut : splitOnce ['@'] rest = some (userinfo, hostpart)) :
    redactPasswordInUrl raw =
      String.ofList (scheme ++ (schemeEnd ++ (userinfoRedacted userinfo ++ '@' :: hostpart))) := by
  rw [redactPasswordInUrl, schemeCut]
  dsimp only
  rw [userinfoCut]

theorem userinfoRedacted_append {lead : List Char} (colon : ':' ∈ lead) (hidden : List Char) :
    userinfoRedacted (lead ++ hidden) = userinfoRedacted lead := by
  cases found : splitOnce [':'] lead with
  | none => exact absurd colon (splitOnce_singleton_eq_none_iff.mp found)
  | some parts =>
    rw [userinfoRedacted, userinfoRedacted, splitOnce_append_of_some found hidden, found]

theorem splitOnce_scheme (scheme user password host : String) :
    splitOnce schemeEnd (passwordUrl scheme user password host).toList =
      match splitOnce schemeEnd scheme.toList with
      | none => some (scheme.toList, user.toList ++ ':' :: (password.toList ++ '@' :: host.toList))
      | some (before, after) => some (before, after ++ (schemeEnd ++
          (user.toList ++ ':' :: (password.toList ++ '@' :: host.toList)))) := by
  rw [passwordUrl, String.toList_ofList]
  cases found : splitOnce schemeEnd scheme.toList with
  | none => exact splitOnce_append (by decide) found _
  | some parts => exact splitOnce_append_of_some found _

theorem redact_clear {scheme user : String} (noAt : '@' ∉ user.toList) (clear : SchemeClear scheme)
    (host : String) : ∃ front, ∀ password, redactPasswordInUrl (passwordUrl scheme user password host) =
      String.ofList (front ++ hostpartOf password host) := by
  -- what stands before the password once the URL is cut at its first scheme separator
  obtain ⟨before, lead, colon, noAtLead, cut⟩ : ∃ before lead, ':' ∈ lead ∧ '@' ∉ lead ∧
      ∀ password, splitOnce schemeEnd (passwordUrl scheme user password host).toList =
        some (before, lead ++ (password.toList ++ '@' :: host.toList)) := by
    have noAtUser : '@' ∉ user.toList ++ [':'] := by
      rw [List.mem_append, not_or]
      exact ⟨noAt, by decide⟩
    cases found : splitOnce schemeEnd scheme.toList with
    | none =>
      refine ⟨scheme.toList, user.toList ++ [':'], by simp, noAtUser, fun password => ?_⟩
      rw [splitOnce_scheme, found, List.append_assoc]
      rfl
    | some parts =>
      have noAtRest : '@' ∉ parts.2 := clear parts.1 parts.2 found
      refine ⟨parts.1, parts.2 ++ (schemeEnd ++ (user.toList ++ [':'])), by simp, ?_, fun password => ?_⟩
      · rw [List.mem_append, List.mem_append, not_or, not_or]
        exact ⟨noAtRest, by decide, noAtUser⟩
      · rw [splitOnce_scheme, found]
        simp only [List.append_assoc, List.singleton_append]
  refine ⟨before ++ (schemeEnd ++ (userinfoRedacted lead ++ ['@'])), fun password => ?_⟩
  obtain ⟨hidden, found⟩ := splitOnce_password password host
  have userinfoCut := splitOnce_singleton_append noAtLead (password.toList ++ '@' :: host.toList)
  rw [found] at userinfoCut
  rw [redact_eq (cut password) userinfoCut, userinfoRedacted_append colon]
  simp only [List.append_assoc, List.singleton_append]

theorem redact_not_clear {scheme : String} (user : String) (notClear : ¬ SchemeClear scheme)
    (host : String) : ∃ front, ∀ password, redactPasswordInUrl (passwordUrl scheme user password host) =
      String.ofList (front ++ (password.toList ++ '@' :: host.toList)) := by
  obtain ⟨before, after, found, atSign⟩ : ∃ before after,
      splitOnce schemeEnd scheme.toList = some (before, after) ∧ '@' ∈ after := by
    by_contra absent
    exact notClear (fun before after found atSign => absent ⟨before, after, found, atSign⟩)
  cases userinfoFound : splitOnce ['@'] after with
  | none => exact absurd atSign (splitOnce_singleton_eq_none_iff.mp userinfoFound)
  | some parts =>
    refine ⟨before ++ (schemeEnd ++ (userinfoRedacted parts.1 ++ '@' :: (parts.2 ++
      (schemeEnd ++ (user.toList ++ [':']))))), fun password => ?_⟩
    have schemeCut := splitOnce_scheme scheme user password host
    rw [found] at schemeCut
    rw [redact_eq schemeCut (splitOnce_append_of_some userinfoFound _)]
    simp only [List.append_assoc, List.cons_append, List.nil_append]

/-- Two passwords are shown alike exactly when they are the same after their first at sign,
or, where the scheme is not clear, when they are equal. -/
theorem redact_same_iff {scheme user : String} (noAt : '@' ∉ user.toList) (host p q : String) :
    redactPasswordInUrl (passwordUrl scheme user p host) =
        redactPasswordInUrl (passwordUrl scheme user q host) ↔
      p = q ∨ SchemeClear scheme ∧ afterAt p = afterAt q := by
  by_cases clear : SchemeClear scheme
  · obtain ⟨front, shown⟩ := redact_clear noAt clear host
    rw [shown, shown, String.ofList_inj, List.append_right_inj, hostpartOf_eq_iff]
    constructor
    · exact fun same => Or.inr ⟨clear, same⟩
    · rintro (rfl | ⟨_, same⟩)
      · rfl
      · exact same
  · obtain ⟨front, shown⟩ := redact_not_clear user clear host
    rw [shown, shown, String.ofList_inj, List.append_right_inj, List.append_left_inj, String.toList_inj]
    constructor
    · exact Or.inl
    · rintro (same | ⟨impossible, _⟩)
      · exact same
      · exact absurd impossible clear

theorem redact_same_plain : redactPasswordInUrl (passwordUrl "postgres" "u" "x" "h") =
      redactPasswordInUrl (passwordUrl "postgres" "u" "y" "h") ↔
    "x" = "y" ∨ SchemeClear "postgres" ∧ afterAt "x" = afterAt "y" :=
  redact_same_iff (by decide) "h" "x" "y"

/-- A password with an at sign is shown from there on. -/
theorem redact_shows_password : ¬ ∀ scheme user host p q : String,
    ':' ∉ user.toList → '@' ∉ user.toList →
      redactPasswordInUrl (passwordUrl scheme user p host) =
        redactPasswordInUrl (passwordUrl scheme user q host) := by
  intro same
  have shown : redactPasswordInUrl (passwordUrl "postgres" "u" "a@b" "h") = "postgres://u:***@b@h" := by
    decide +kernel
  have hidden : redactPasswordInUrl (passwordUrl "postgres" "u" "c" "h") = "postgres://u:***@h" := by
    decide +kernel
  have equal := same "postgres" "u" "h" "a@b" "c" (by decide) (by decide)
  rw [shown, hidden] at equal
  exact absurd equal (by decide)

end Redaction

end GitAgentic
