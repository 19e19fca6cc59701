import GitAgentic.Memory.Segment

/-! The order in which refs are pushed onto a manifest. Entries are sorted by table and
lower key only; refs that agree in both stand in the opposite order of their arrival. -/
namespace GitAgentic

namespace SegmentManifest

section

variable {Hash : Type} (P : Platform Hash)

def pushAll (schemaVersion : String) (refs : List (SegmentRef Hash)) : SegmentManifest Hash :=
  refs.foldl (push P) (new schemaVersion)

/-- Nothing tells the two manifests apart. -/
structure Same (m m' : SegmentManifest Hash) : Prop where
  entries : m.entries = m'.entries
  bytes : m.toCanonicalBytes P = m'.toCanonicalBytes P
  hash : m.hash P = m'.hash P

theorem Same.of_eq {m m' : SegmentManifest Hash} (h : m = m') : Same P m m' := by
  subst h
  exact ⟨rfl, rfl, rfl⟩

/-- Whatever order the refs are pushed in, the manifest is the same. -/
def OrderFree (schemaVersion : String) (refs : List (SegmentRef Hash)) : Prop :=
  ∀ l₁ l₂, l₁.Perm refs → l₂.Perm refs →
    Same P (pushAll P schemaVersion l₁) (pushAll P schemaVersion l₂)

/-- Refs can be pushed in any order exactly when no two of them agree in table and
lower key. -/
theorem orderFree_iff (schemaVersion : String) {refs : List (SegmentRef Hash)} (nodup : refs.Nodup) :
    OrderFree P schemaVersion refs ↔ refs.Pairwise (fun a b => keyOf P a ≠ keyOf P b) := by
  rw [← Arrange.arrange_order_free_iff nodup]
  refine forall₄_congr (fun l₁ l₂ _ _ => ?_)
  rw [pushAll, pushAll, foldl_push, foldl_push]
  constructor
  · exact fun same => same.entries
  · intro entries
    exact Same.of_eq P (congrArg (SegmentManifest.mk schemaVersion) entries)

end

/-- A ref of the table whose keys start at 1. -/
def refFromOne (pkHi : UInt64) : SegmentRef Bytes where
  table := "messages"
  pkLo := .ofJson (.number (.posInt 1))
  pkHi := .ofJson (.number (.posInt pkHi))
  segment := []
  rowCount := 1

/-- The same key range in another table. -/
def refElsewhere : SegmentRef Bytes := { refFromOne 2 with table := "episodes" }

theorem orderFree_iff_two :
    OrderFree Platform.sample "1" [refFromOne 2, refElsewhere] ↔
      [refFromOne 2, refElsewhere].Pairwise
        (fun a b => keyOf Platform.sample a ≠ keyOf Platform.sample b) :=
  orderFree_iff Platform.sample "1" (by decide)

/-- Two refs that start at one key change places with the order of pushing. -/
theorem not_always_orderFree :
    ¬ ∀ (schemaVersion : String) (refs : List (SegmentRef Bytes)), refs.Nodup →
      OrderFree Platform.sample schemaVersion refs := by
  intro always
  have nodup : [refFromOne 2, refFromOne 3].Nodup := by decide
  have same := always "1" _ nodup _ _ (.refl _) (.swap (refFromOne 2) (refFromOne 3) [])
  have apart : (pushAll Platform.sample "1" [refFromOne 2, refFromOne 3]).entries ≠
      (pushAll Platform.sample "1" [refFromOne 3, refFromOne 2]).entries := by
    simp only [pushAll, foldl_push]
    exact Arrange.arrange_swap_ne [] rfl (by decide)
  exact apart same.entries

end SegmentManifest

end GitAgentic
