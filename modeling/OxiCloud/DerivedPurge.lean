import OxiCloud.Accounting

/-! # Purging what is derived from a content

`purge_derived_blobs` deletes the rows derived from a source and releases the references of those that were
returned; `purge_content_facts` deletes the facts about the source. The hash of a negative row is `NULL` and is
not decoded, and then the call returns early. `purged_iff`: the purge is complete exactly if the source had no
negative row, or nothing to release and no facts. -/

namespace OxiCloud.DerivedPurge

open Lib.Tables Schema

variable {H : Type} [DecidableEq H]

/-- The store, the sources with a row in the two tables of facts, and the calls of `remove_reference`. -/
structure State (H : Type) where
  store : Store H
  audio : Finset H
  capture : Finset H
  released : List H

def purgeContentFacts (t : State H) (h : H) : State H :=
  { t with audio := t.audio.erase h, capture := t.capture.erase h }

/-- The statements succeed, the deleted rows are returned in the given order. -/
def purgeDerivedBlobs (t : State H) (h : H) (order : List (DerivedKey H)) : State H :=
  let (rows, store) := t.store.deleteDerived h order
  if none ∈ rows then { t with store }
  else purgeContentFacts { t with store, released := t.released ++ rows.reduceOption } h

/-- The rows of the source are gone, every reference that one of them held is released once, and there are no
facts left. -/
structure Purged (h : H) (t t' : State H) : Prop where
  rows : ∀ k, t'.store.contentDerivedBlobs.get k =
    if k.sourceHash = h then none else t.store.contentDerivedBlobs.get k
  released : ∀ x, t'.released.count x + t'.store.references x = t.released.count x + t.store.references x
  facts : h ∉ t'.audio ∧ h ∉ t'.capture

variable {t : State H} {h : H} {order : List (DerivedKey H)}

theorem mem_deleted {s : Store H} (ho : s.DerivedOrder h order) {r : Option H} :
    r ∈ (s.deleteDerived h order).1 ↔ ∃ k, k.sourceHash = h ∧ s.contentDerivedBlobs.get k = some r := by
  have hmem : ∀ k, k ∈ order ↔ ∃ r, s.contentDerivedBlobs.get k = some r ∧ k.sourceHash = h := by
    intro k
    rw [← List.mem_toFinset, ho.2, Table.mem_sat]
    simp
  simp only [Store.deleteDerived, List.mem_map, hmem]
  constructor
  · rintro ⟨k, ⟨r, hr, hk⟩, rfl⟩
    exact ⟨k, hk, by rw [hr, Option.join_some]⟩
  · rintro ⟨k, hk, hr⟩
    exact ⟨k, ⟨r, hr, hk⟩, by rw [hr, Option.join_some]⟩

/-- **A purge is complete** iff the source has no negative row, or no other row and no facts. -/
theorem purged_iff (ho : t.store.DerivedOrder h order) : Purged h t (purgeDerivedBlobs t h order) ↔
    (¬ ∃ k, k.sourceHash = h ∧ t.store.contentDerivedBlobs.get k = some none) ∨
      (¬ ∃ x k, k.sourceHash = h ∧ t.store.contentDerivedBlobs.get k = some (some x)) ∧
        h ∉ t.audio ∧ h ∉ t.capture := by
  have hrefs := Store.references_deleteDerived ho
  have hrows : ∀ k, (t.store.deleteDerived h order).2.contentDerivedBlobs.get k =
      if k.sourceHash = h then none else t.store.contentDerivedBlobs.get k := by
    intro k
    simp only [Store.deleteDerived, Table.get_filter]
    by_cases hk : k.sourceHash = h <;> cases t.store.contentDerivedBlobs.get k <;> simp [hk]
  simp only [← mem_deleted ho]
  unfold purgeDerivedBlobs
  dsimp only
  split_ifs with hneg
  · constructor
    · intro hp
      refine .inr ⟨?_, hp.facts⟩
      rintro ⟨x, hx⟩
      have h1 := hp.released x
      have h2 := hrefs x
      have h3 := List.count_pos_iff.mpr hx
      dsimp only at h1
      omega
    · rintro (hno | ⟨hno, hfacts⟩)
      · exact absurd hneg hno
      · refine ⟨hrows, fun x => ?_, hfacts⟩
        have h2 := hrefs x
        rw [List.count_eq_zero.mpr fun hx => hno ⟨x, hx⟩] at h2
        exact congrArg (_ + ·) h2
  · refine iff_of_true ⟨hrows, fun x => ?_, ?_⟩ (.inl hneg)
    · have h2 := hrefs x
      simp only [purgeContentFacts, List.count_append, Accounting.Accounts.count_reduceOption]
      omega
    · exact ⟨Finset.notMem_erase h _, Finset.notMem_erase h _⟩

/-- A content with facts and a thumbnail, and the other rows. -/
def song (other : Table (DerivedKey ℕ) (Option ℕ)) : State ℕ where
  store := { Store.fresh ∅ with contentDerivedBlobs := other.set ⟨1, .thumbnail, "small"⟩ (some 2) }
  audio := {1}
  capture := ∅
  released := []

theorem purged_iff_positive :
    Purged 1 (song .empty) (purgeDerivedBlobs (song .empty) 1 [⟨1, .thumbnail, "small"⟩]) := by
  refine (purged_iff (by decide +kernel)).mpr (.inl ?_)
  rintro ⟨k, -, hk⟩
  rw [song, Table.get_set] at hk
  split_ifs at hk <;> cases hk

/-- **The thumbnail is not released**, and the facts stay, because of the negative row. -/
theorem negative_suppresses_release :
    let t := song (.set .empty ⟨1, .transcode, "web"⟩ none)
    let order := [⟨1, .thumbnail, "small"⟩, ⟨1, .transcode, "web"⟩]
    t.store.DerivedOrder 1 order ∧ (purgeDerivedBlobs t 1 order).store.contentDerivedBlobs.keys = ∅ ∧
      (purgeDerivedBlobs t 1 order).released = [] ∧ 1 ∈ (purgeDerivedBlobs t 1 order).audio := by
  decide +kernel

end OxiCloud.DerivedPurge
