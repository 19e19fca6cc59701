import GitAgentic.Json.Text

/-! What the program takes from libraries it does not contain. Each law is the
one the program relies on: hashing has no collisions, and zstd, the JSON reader,
hash decoding and timestamp decoding invert their writers. -/
namespace GitAgentic

/-- A digest is known through its bytes only. An instant counts nanoseconds since
the epoch. The last JSON law says that a document is at least as long as it has
values, so no document is shorter than a byte array it spells out. -/
structure Platform (Hash : Type) where
  of : Bytes → Hash
  of_injective : Function.Injective of
  asBytes : Hash → Bytes
  fromBytes : Bytes → Option Hash
  fromBytes_asBytes : ∀ h, fromBytes (asBytes h) = some h
  f64Text : UInt64 → List Char
  fromSlice : Bytes → Option Json
  fromSlice_text : ∀ j, fromSlice (utf8 (Json.text f64Text j)) = some j
  nodes_fromSlice : ∀ b j, fromSlice b = some j → j.nodes ≤ b.length
  encodeAll : Bytes → Bytes
  decodeAll : Bytes → Option Bytes
  decodeAll_encodeAll : ∀ b, decodeAll (encodeAll b) = some b
  rfc3339 : Int → String
  parseRfc3339 : String → Option Int
  parse_rfc3339 : ∀ t, parseRfc3339 (rfc3339 t) = some t

namespace Platform

variable {Hash : Type} (P : Platform Hash)

/-- `serde_json::to_vec` -/
def toVec (j : Json) : Bytes := utf8 (j.text P.f64Text)

/-- `serde_json::to_string`, also the display form of a value. -/
def toText (j : Json) : String := String.ofList (j.text P.f64Text)

theorem fromSlice_toVec (j : Json) : P.fromSlice (P.toVec j) = some j := P.fromSlice_text j

theorem toVec_injective : Function.Injective P.toVec := by
  intro j k h
  have hj := P.fromSlice_toVec j
  rw [h, P.fromSlice_toVec k] at hj
  exact (Option.some.inj hj).symm

theorem toText_injective : Function.Injective P.toText := by
  intro j k h
  have chars : j.text P.f64Text = k.text P.f64Text := by
    simpa [toText] using congrArg String.toList h
  exact P.toVec_injective (congrArg utf8 chars)

theorem asBytes_injective : Function.Injective P.asBytes := by
  intro h k same
  have hh := P.fromBytes_asBytes h
  rw [same, P.fromBytes_asBytes k] at hh
  exact (Option.some.inj hh).symm

def hexByte (b : UInt8) : List Char :=
  [Json.hexDigit (b.toNat / 16), Json.hexDigit (b.toNat % 16)]

def hex (h : Hash) : List Char := (P.asBytes h).flatMap hexByte

def toHex (h : Hash) : String := String.ofList (P.hex h)

def short (h : Hash) : String := String.ofList ((P.hex h).take 7)

def shard (h : Hash) : String × String :=
  (String.ofList ((P.hex h).take 2), String.ofList ((P.hex h).drop 2))

theorem hexDigit_injective : ∀ m < 16, ∀ n < 16, Json.hexDigit m = Json.hexDigit n → m = n := by
  decide

theorem flatMap_hexByte_injective {bs cs : Bytes} (h : bs.flatMap hexByte = cs.flatMap hexByte) :
    bs = cs := by
  induction bs generalizing cs with
  | nil => cases cs with
    | nil => rfl
    | cons c cs => simp [hexByte] at h
  | cons b bs ih => cases cs with
    | nil => simp [hexByte] at h
    | cons c cs =>
      simp only [List.flatMap_cons, hexByte, List.cons_append, List.nil_append,
        List.cons.injEq] at h
      have hb := b.toNat_lt
      have hc := c.toNat_lt
      have high := hexDigit_injective _ (by omega) _ (by omega) h.1
      have low := hexDigit_injective _ (by omega) _ (by omega) h.2.1
      rw [UInt8.toNat_inj.mp (by omega : b.toNat = c.toNat), ih h.2.2]

theorem hex_injective : Function.Injective P.hex :=
  fun _ _ h => P.asBytes_injective (flatMap_hexByte_injective h)

theorem toList_ofList_inj {cs ds : List Char} (h : String.ofList cs = String.ofList ds) :
    cs = ds := by
  simpa using congrArg String.toList h

theorem shard_injective : Function.Injective P.shard := by
  intro h k same
  have front := toList_ofList_inj (Prod.mk.inj same).1
  have back := toList_ofList_inj (Prod.mk.inj same).2
  apply P.hex_injective
  rw [← List.take_append_drop 2 (P.hex h), front, back, List.take_append_drop]

/- Instants other than the epoch get a text of their own, not the RFC 3339 one. -/
def sampleTime (t : Int) : String :=
  if t = 0 then "1970-01-01T00:00:00Z"
  else String.ofList ('T' :: Nat.toDigits 10 (Equiv.intEquivNat t))

def parseSampleTime (s : String) : Option Int :=
  if s = "1970-01-01T00:00:00Z" then some 0
  else match s.toList with
    | 'T' :: ds => some (Equiv.intEquivNat.symm (Nat.ofDigitChars 10 ds 0))
    | _ => none

theorem parse_sampleTime (t : Int) : parseSampleTime (sampleTime t) = some t := by
  by_cases epoch : t = 0
  · subst epoch; rfl
  · have other : String.ofList ('T' :: Nat.toDigits 10 (Equiv.intEquivNat t)) ≠
        "1970-01-01T00:00:00Z" := by
      intro same
      have h := congrArg String.toList same
      simp at h
    unfold sampleTime parseSampleTime
    rw [if_neg epoch, if_neg other, String.toList_ofList]
    simp only [Nat.ofDigitChars_ten_toDigits, Equiv.symm_apply_apply]

/-- Identity hashing and identity compression over the compact JSON text: a
platform on which definitions can be run. -/
def sample : Platform Bytes where
  of := id
  of_injective := Function.injective_id
  asBytes := id
  fromBytes := some
  fromBytes_asBytes := fun _ => rfl
  f64Text := Json.sampleF64
  fromSlice := Json.sampleFromSlice
  fromSlice_text := Json.sampleFromSlice_text
  nodes_fromSlice := Json.nodes_sampleFromSlice
  encodeAll := id
  decodeAll := some
  decodeAll_encodeAll := fun _ => rfl
  rfc3339 := sampleTime
  parseRfc3339 := parseSampleTime
  parse_rfc3339 := parse_sampleTime

end Platform

end GitAgentic
