import OxiCloud.Folders.Homes
import OxiCloud.Folders.Paths
import OxiCloud.Lib.Pools

/-! # What purging the trash removes

A retention sweep, an emptied trash and the permanent deletion of one item, each interleaved statement by
statement with any other requests. While every statement of the run is `Heeded`, the deleting statements
remove trashed rows only, those of a sweep only rows whose own date is outside of the retention period
(`purges_remove_trash`). A program that has read the clock carries the time it read as its token.

The deletions by id look the item up first and delete it in later statements; a restore in between makes
them delete live rows (`purge_removes_live`). -/

namespace OxiCloud.Folders.Purge

open Lib.Programs Lib.Programs.Prog Lib.Forests Lib.Tables Lib.Pools Schema Folders Folders.Tree
open Folders.Requests Folders.Paths

/-! ### Removed rows -/

/-- Every removed row has a trash flag and a date satisfying `P`. -/
structure Removes (P : Bool → Option ℕ → Prop) (t t' : Tree) : Prop where
  folders : ∀ f r, t.folders.get f = some r → t'.folders.get f = none → P r.isTrashed r.trashedAt
  files : ∀ x r, t.files.get x = some r → t'.files.get x = none → P r.isTrashed r.trashedAt

/-- In the trash. -/
def Trashed (b : Bool) (_ : Option ℕ) : Prop := b = true

/-- In the trash since before `cutoff`. -/
def Before (cutoff : ℕ) (b : Bool) (o : Option ℕ) : Prop := b = true ∧ ∃ a, o = some a ∧ a < cutoff

variable {t t' : Tree} {P : Bool → Option ℕ → Prop} {n : ℕ}

theorem Removes.mono {Q : Bool → Option ℕ → Prop} (h : Removes P t t') (hPQ : ∀ b o, P b o → Q b o) :
    Removes Q t t' :=
  ⟨fun f r hr hn => hPQ _ _ (h.folders f r hr hn), fun x r hr hn => hPQ _ _ (h.files x r hr hn)⟩

theorem removes_nothing (hf : ∀ f, t.folders.get f ≠ none → t'.folders.get f ≠ none)
    (hx : ∀ x, t.files.get x ≠ none → t'.files.get x ≠ none) : Removes P t t' where
  folders f r hr hn := absurd hn (hf f (by simp [hr]))
  files x r hr hn := absurd hn (hx x (by simp [hr]))

theorem removes_refl : Removes P t t := removes_nothing (fun _ h => h) fun _ h => h

theorem removes_filterFiles {p : FileId → File → Bool}
    (h : ∀ x r, t.files.get x = some r → p x r = false → P r.isTrashed r.trashedAt) :
    Removes P t { t with files := t.files.filter p } where
  folders f r hr hn := by
    rw [hr] at hn
    cases hn
  files x r hr hn := by
    replace hn : (t.files.get x).filter (p x) = none := hn
    rw [hr, Option.filter_some] at hn
    split_ifs at hn with hp
    exact h x r hr (by simpa using hp)

variable {S : Finset FolderId}

/-- What a deletion of folders removes lies below them. -/
theorem removes_deleteCascade (hk : t.Kept)
    (hf : ∀ f r s, t.folders.get f = some r → s ∈ S → Climbs t.par f s → P r.isTrashed r.trashedAt)
    (hx : ∀ x r p s, t.files.get x = some r → r.folderId = some p → s ∈ S → Climbs t.par p s →
      P r.isTrashed r.trashedAt) : Removes P t (t.deleteCascade S) where
  folders := by
    intro f r hr hn
    have hd : f ∈ t.doomed S := by
      by_contra hnot
      rw [deleteCascade_get.mpr ⟨hr, hnot⟩] at hn
      cases hn
    obtain ⟨s, hs, hc⟩ := hk.homed.climbs_of_doomed hd
    exact hf f r s hr hs hc
  files := by
    intro x r hr hn
    obtain ⟨p, hp⟩ := Option.ne_none_iff_exists'.mp (hk.filed x r hr)
    -- the folder of the file falls, be it with its drive
    have hd : ∃ g, Climbs t.par p g ∧ g ∈ t.doomed S := by
      by_contra hnot
      rw [hk.homed.file_stays hk.sound.placed hr hp fun g hc hg => hnot ⟨g, hc, hg⟩] at hn
      cases hn
    obtain ⟨g, hc, hg⟩ := hd
    obtain ⟨s, hs, hcl⟩ := hk.homed.climbs_of_doomed hg
    exact hx x r p s hr hp hs (hc.trans hcl)

/-! ### Below a trashed folder -/

section Below
variable (hk : t.Kept) {s : FolderId} {q : Folder} (hs : t.folders.get s = some q)
  (hq : q.isTrashed = true)

include hk hs hq

theorem trashed_below {f : FolderId} {r : Folder} (hr : t.folders.get f = some r)
    (hc : Climbs t.par f s) : r.isTrashed = true := by
  by_contra hn
  have h := hk.covered.climbs hc ((folderTrashed_of_get hr).trans (by simpa using hn))
  rw [folderTrashed_of_get hs, hq] at h
  cases h

theorem file_trashed_below {x : FileId} {r : File} {p : FolderId} (hr : t.files.get x = some r)
    (hp : r.folderId = some p) (hc : Climbs t.par p s) : r.isTrashed = true := by
  by_contra hn
  have h := hk.covered.climbs hc (hk.covered.files x r p hr (by simpa using hn) hp)
  rw [folderTrashed_of_get hs, hq] at h
  cases h

/-- What is below a trashed folder has been in the trash for at least as long. -/
theorem older_below {b : ℕ} (hb : q.trashedAt = some b) {f : FolderId} {r : Folder}
    (hr : t.folders.get f = some r) (hc : Climbs t.par f s) : ∃ a, r.trashedAt = some a ∧ a ≤ b := by
  induction hc using Relation.ReflTransGen.head_induction_on generalizing r with
  | refl =>
    obtain rfl : q = r := Option.mem_unique hs hr
    exact ⟨b, hb, le_refl b⟩
  | @head f p hup hcl ih =>
    have hp : r.parentId = some p := (par_of_get hr).symm.trans hup
    obtain ⟨q', hq', -⟩ := (hk.sound.placed.folders f r hr).below p hp
    obtain ⟨a', ha', hle⟩ := ih hq'
    have hrt := trashed_below hk hs hq hr (Climbs.up hup hcl)
    obtain ⟨a, ha, -⟩ := hk.dated.folders f r hr hrt
    exact ⟨a, ha, (hk.dated.folderAge f r p q' a a' hr hp hq' ha ha').trans hle⟩

theorem file_older_below {b : ℕ} (hb : q.trashedAt = some b) {x : FileId} {r : File} {p : FolderId}
    (hr : t.files.get x = some r) (hp : r.folderId = some p) (hc : Climbs t.par p s) :
    ∃ a, r.trashedAt = some a ∧ a ≤ b := by
  obtain ⟨q', hq', -⟩ := hk.sound.placed.files x r hr p hp
  obtain ⟨a', ha', hle⟩ := older_below hk hs hq hb hq' hc
  obtain ⟨a, ha, -⟩ := hk.dated.files x r hr (file_trashed_below hk hs hq hr hp hc)
  exact ⟨a, ha, (hk.dated.fileAge x r p q' a a' hr hp hq' ha ha').trans hle⟩

end Below

/-! ### The deleting statements -/

/-- The statements that delete rows. -/
def Purging : Op → Prop
  | .deleteFolderFiles _ | .deleteFolder _ | .deleteFile _ | .clearFiles _ | .clearFolders _
  | .expireFiles _ | .expireFolders _ => True
  | _ => False

/-- What is deleted by its id is in the trash at that moment. -/
def InTrash (t : Tree) : Op → Prop
  | .deleteFolderFiles id | .deleteFolder id =>
    ∀ r, t.folders.get id = some r → r.isTrashed = true
  | .deleteFile x => ∀ r, t.files.get x = some r → r.isTrashed = true
  | _ => True

/-- The cutoff of a statement of a sweep. -/
def cutoffOf : Op → Option ℕ
  | .expireFiles cutoff | .expireFolders cutoff => some cutoff
  | _ => none

theorem deleteCascade_trashed (hk : t.Kept)
    (hS : ∀ s ∈ S, ∃ q, t.folders.get s = some q ∧ q.isTrashed = true) :
    Removes Trashed t (t.deleteCascade S) := by
  refine removes_deleteCascade hk (fun f r s hr hs hc => ?_) fun x r p s hr hp hs hc => ?_
  · obtain ⟨q, hq, hqt⟩ := hS s hs
    exact trashed_below hk hq hqt hr hc
  · obtain ⟨q, hq, hqt⟩ := hS s hs
    exact file_trashed_below hk hq hqt hr hp hc

theorem deleteCascade_before (hk : t.Kept) {cutoff : ℕ}
    (hS : ∀ s ∈ S, ∃ q b, t.folders.get s = some q ∧ q.isTrashed = true ∧ q.trashedAt = some b ∧
      b < cutoff) : Removes (Before cutoff) t (t.deleteCascade S) := by
  refine removes_deleteCascade hk (fun f r s hr hs hc => ?_) fun x r p s hr hp hs hc => ?_
  · obtain ⟨q, b, hq, hqt, hb, hlt⟩ := hS s hs
    obtain ⟨a, ha, hle⟩ := older_below hk hq hqt hb hr hc
    exact ⟨trashed_below hk hq hqt hr hc, a, ha, by omega⟩
  · obtain ⟨q, b, hq, hqt, hb, hlt⟩ := hS s hs
    obtain ⟨a, ha, hle⟩ := file_older_below hk hq hqt hb hr hp hc
    exact ⟨file_trashed_below hk hq hqt hr hp hc, a, ha, by omega⟩

theorem folderExpired_iff {cutoff : ℕ} {r : Folder} (h : t.folderExpired cutoff r = true) :
    r.isTrashed = true ∧ ∃ a, r.trashedAt = some a ∧ a < cutoff := by
  simp only [folderExpired, Bool.and_eq_true, Option.any_eq_true, decide_eq_true_eq] at h
  exact h.1

theorem fileExpired_iff {cutoff : ℕ} {r : File} (h : t.fileExpired cutoff r = true) :
    r.isTrashed = true ∧ ∃ a, r.trashedAt = some a ∧ a < cutoff := by
  simp only [fileExpired, Bool.and_eq_true, Option.any_eq_true, decide_eq_true_eq] at h
  exact h.1

variable {op : Op} {ch : Draw}

/-- A statement of a sweep removes rows from before its cutoff. -/
theorem sweep_removes (hk : t.Kept) {cutoff : ℕ} (hop : cutoffOf op = some cutoff)
    (he : t.effect op ch = .ok (n, t')) : Removes (Before cutoff) t t' := by
  unfold Tree.effect at he
  split_ifs at he
  rcases op
  case expireFiles c =>
    obtain rfl : c = cutoff := Option.some.inj hop
    obtain ⟨hpick, rfl⟩ := expireFiles_ok he
    refine removes_filterFiles fun x r hr hx => ?_
    obtain ⟨r', hr', hexp⟩ := Table.mem_sat.mp (hpick (by simpa using hx))
    obtain rfl : r = r' := Option.mem_unique hr hr'
    exact fileExpired_iff hexp
  case expireFolders c =>
    obtain rfl : c = cutoff := Option.some.inj hop
    obtain ⟨hpick, rfl⟩ := expireFolders_ok he
    refine deleteCascade_before hk fun s hs => ?_
    obtain ⟨q, hq, hexp⟩ := Table.mem_sat.mp (hpick hs)
    obtain ⟨hqt, b, hb, hlt⟩ := folderExpired_iff hexp
    exact ⟨q, b, hq, hqt, hb, hlt⟩
  all_goals cases hop

/-- **A deleting statement removes trashed rows.** -/
theorem purging_removes (hk : t.Kept) (hop : Purging op) (hin : InTrash t op)
    (he : t.effect op ch = .ok (n, t')) : Removes Trashed t t' := by
  by_cases hc : ∃ cutoff, cutoffOf op = some cutoff
  · obtain ⟨cutoff, hc⟩ := hc
    exact (sweep_removes hk hc he).mono fun b o h => h.1
  · unfold Tree.effect at he
    split_ifs at he
    rcases op
    case deleteFolderFiles id =>
      have ht := congrArg Prod.snd (Except.ok.inj he)
      simp only [Tree.deleteFolderFiles] at ht
      rcases hid : t.folders.get id with _ | root
      · simp only [hid] at ht
        exact ht ▸ removes_refl
      · simp only [hid] at ht
        subst ht
        refine removes_filterFiles fun x r hr hx => ?_
        obtain ⟨p, hp, hu⟩ : ∃ p, r.folderId = some p ∧ t.under root.lpath p = true := by
          simpa [Option.any_eq_true] using hx
        obtain ⟨q, hq, -⟩ := hk.sound.placed.files x r hr p hp
        exact file_trashed_below hk hid (hin root hid) hr hp ((hk.sound.placed.under_iff hid hq).mp hu)
    case deleteFolder id =>
      have ht := congrArg Prod.snd (Except.ok.inj he)
      simp only [Tree.deleteFolder] at ht
      split_ifs at ht with hid <;> subst ht
      · refine deleteCascade_trashed hk fun s hs => ?_
        obtain rfl : s = id := Finset.mem_singleton.mp hs
        obtain ⟨q, hq⟩ := Option.isSome_iff_exists.mp hid
        exact ⟨q, hq, hin q hq⟩
      · exact removes_refl
    case deleteFile id =>
      have ht := congrArg Prod.snd (Except.ok.inj he)
      simp only [Tree.deleteFile] at ht
      split_ifs at ht <;> subst ht
      · refine ⟨fun f r hr hn => ?_, fun x r hr hn => ?_⟩
        · rw [hr] at hn
          cases hn
        · replace hn : (t.files.erase id).get x = none := hn
          rw [Table.get_erase] at hn
          split_ifs at hn with hx
          · subst hx
            exact hin r hr
          · rw [hr] at hn
            cases hn
      · exact removes_refl
    case clearFiles drives =>
      cases he
      refine removes_filterFiles fun x r hr hx => ?_
      simp only [Bool.not_eq_false', Bool.and_eq_true] at hx
      exact hx.2
    case clearFolders drives =>
      cases he
      refine deleteCascade_trashed hk fun s hs => ?_
      obtain ⟨q, hq, hqt⟩ := Table.mem_sat.mp hs
      simp only [Bool.and_eq_true] at hqt
      exact ⟨q, hq, hqt.2⟩
    case expireFiles c => exact absurd ⟨c, rfl⟩ hc
    case expireFolders c => exact absurd ⟨c, rfl⟩ hc
    all_goals exact hop.elim

/-! ### Interleaved requests -/

/-- The statement is orderly and careful and moves no file out of all folders. -/
def Heeded (db : Database) : Stmt → Prop
  | .run op => db.tree.Orderly op ∧ db.tree.Careful op ∧ Grounded op
  | _ => True

instance (db : Database) (s : Stmt) : Decidable (Heeded db s) := by
  apply Stmt.casesOn (motive := fun s => Decidable (Heeded db s)) s
  all_goals intros; dsimp only [Heeded]; infer_instance

/-- A program that reads the clock holds the time it has read. -/
def clocks : Ledger sql Database ℕ :=
  ⟨fun s db _ c => match s with
    | .clock => {db.tree.now}
    | _ => c⟩

/-- The statement that a program issues next, if it changes tables. -/
def nextOp : Db Bool → Option Op
  | .call (.run op) _ => some op
  | _ => none

/-- Every cutoff the program will hand to a statement is the time it has read less the retention. -/
def Timed (retention : ℕ) : Db Bool → Multiset ℕ → Prop
  | .ret _, _ => True
  | .call s k, c =>
    (∀ op cutoff, s = .run op → cutoffOf op = some cutoff → ∃ now ∈ c, cutoff = now - retention) ∧
      ∀ ch db, Timed retention (k (exec s ch db).1) (clocks.next s db (exec s ch db).1 c)

/-- The sweeps among the requests use the same retention period. -/
def Retains (retention : ℕ) : Request → Prop
  | .deleteExpiredBulk _ r => r = retention
  | _ => True

instance (retention : ℕ) (q : Request) : Decidable (Retains retention q) := by
  unfold Retains
  split <;> infer_instance

/-- A statement that does not read the clock, with a cutoff from one of the times `c` if it has one. -/
def Timely (retention : ℕ) (c : Multiset ℕ) : Stmt → Prop
  | .clock => False
  | .run op => ∀ cutoff, cutoffOf op = some cutoff → ∃ now ∈ c, cutoff = now - retention
  | _ => True

variable {retention : ℕ}

variable {c : Multiset ℕ}

theorem timed_of_only {p : Db Bool} (h : p.Only (Timely retention c)) : Timed retention p c := by
  induction p with
  | ret a => trivial
  | call s k ih =>
    have hs : Timely retention c s := h.1
    refine ⟨fun op cutoff hop hcut => ?_, fun ch db => ?_⟩
    · rw [hop] at hs
      exact hs cutoff hcut
    · have hnext : clocks.next s db (exec s ch db).1 c = c := by
        rcases s with _ | _ | _ | _ | _
        case clock => exact hs.elim
        all_goals rfl
      rw [hnext]
      exact ih _ (h.2 _)

variable {s : Stmt}

/-- Only a sweep reads the clock and hands out cutoffs. -/
theorem timely_of_mayIssue {q : Request} (hq : ∀ rounds r, q ≠ .deleteExpiredBulk rounds r)
    (hs : q.MayIssue s) : Timely retention 0 s := by
  rcases s with op | _ | _ | _ | _
  case clock =>
    rcases q <;> simp [Request.MayIssue] at hs
    exact absurd rfl (hq _ _)
  case run =>
    intro cutoff hcut
    cases op with
    | expireFiles | expireFolders =>
      rcases q <;> simp [Request.MayIssue] at hs
      exact absurd rfl (hq _ _)
    | _ => cases hcut
  all_goals trivial

theorem timed_request {q : Request} (h : Retains retention q) : Timed retention q.prog 0 := by
  by_cases hq : ∃ rounds r, q = .deleteExpiredBulk rounds r
  · obtain ⟨rounds, r, rfl⟩ := hq
    obtain rfl : r = retention := h
    refine ⟨fun op _ hop => (by cases hop), fun ch db => ?_⟩
    have hcut : ∀ cutoff, some (db.tree.now - r) = some cutoff →
        ∃ now ∈ ({db.tree.now} : Multiset ℕ), cutoff = now - r := fun cutoff hc =>
      ⟨_, Multiset.mem_singleton_self _, (Option.some.inj hc).symm⟩
    have hrest : (succeeds (sweep rounds (db.tree.now - r))).Only (Timely r {db.tree.now}) :=
      succeeds_only (sweep_only hcut hcut)
    exact timed_of_only hrest
  · have hn : ∀ rounds r, q ≠ .deleteExpiredBulk rounds r := fun rounds r he => hq ⟨rounds, r, he⟩
    exact timed_of_only ((prog_only q).mono fun s hs => timely_of_mayIssue hn hs)

/-- What a run of heeded statements keeps. -/
structure Settled (retention : ℕ) (Q : Pool sql Database ℕ Bool) : Prop where
  kept : Q.store.tree.Kept
  timed : ∀ th ∈ Q.threads, Timed retention th.prog th.tokens
  past : ∀ th ∈ Q.threads, ∀ now ∈ th.tokens, now ≤ Q.store.tree.now

theorem exec_kept {db : Database} (ch : Draw) (hk : db.tree.Kept) (hh : Heeded db s) :
    (exec s ch db).2.tree.Kept ∧ db.tree.now ≤ (exec s ch db).2.tree.now := by
  rcases exec_tree s ch db with h | ⟨op, n, rfl, h⟩
  · rw [h]
    exact ⟨hk, le_refl _⟩
  · exact ⟨hk.effect hh.1 hh.2.1 hh.2.2 h, (effect_restamped hk.sound hh.2.2 h).now⟩

theorem clocks_next_mem {db : Database} {r : Except SqlError (Answer s)} {now : ℕ}
    (h : now ∈ clocks.next s db r c) : now ∈ c ∨ now = db.tree.now := by
  rcases s with _ | _ | _ | _ | _
  case clock => exact .inr (Multiset.mem_singleton.mp h)
  all_goals exact .inl h

variable {Q : Pool sql Database ℕ Bool}

theorem Settled.step {Q' : Pool sql Database ℕ Bool} (h : Settled retention Q)
    (hs : Step machine clocks (fun s _ db _ => Heeded db s) Q Q') : Settled retention Q' := by
  obtain @⟨db, db', l₁, l₂, c, s, k, r, ch, ha, he⟩ := hs
  obtain ⟨hk, ht, hp⟩ := h
  have hex : exec s ch db = (r, db') := Option.some.inj he
  obtain ⟨hkept, hnow⟩ := exec_kept ch hk ha
  have htime := (ht ⟨c, .call s k⟩ (by simp)).2 ch db
  rw [hex] at hkept hnow htime
  refine ⟨hkept, fun th hth => ?_, fun th hth now hmem => ?_⟩
  · rcases List.mem_append.mp hth with hm | hm
    · exact ht th (by simp [hm])
    · rcases List.mem_cons.mp hm with rfl | hm
      · exact htime
      · exact ht th (by simp [hm])
  · have hold : ∀ th ∈ l₁ ++ ⟨c, .call s k⟩ :: l₂, ∀ now ∈ th.tokens, now ≤ db'.tree.now :=
      fun th hth now hmem => (hp th hth now hmem).trans hnow
    rcases List.mem_append.mp hth with hm | hm
    · exact hold th (by simp [hm]) now hmem
    · rcases List.mem_cons.mp hm with rfl | hm
      · rcases clocks_next_mem hmem with hmem | rfl
        · exact hold ⟨c, .call s k⟩ (by simp) now hmem
        · exact hnow
      · exact hold th (by simp [hm]) now hmem

theorem Settled.runs {Q' : Pool sql Database ℕ Bool} (h : Settled retention Q)
    (hr : Runs machine clocks (fun s _ db _ => Heeded db s) Q Q') : Settled retention Q' := by
  induction hr with
  | refl => exact h
  | tail _ hs ih => exact ih.step hs

theorem settled_start {l : List Request} (hl : ∀ q ∈ l, Retains retention q) :
    Settled retention (Pool.start Database.fresh (l.map Request.prog)) where
  kept := kept_empty
  timed := by
    intro th hth
    obtain ⟨p, hp, rfl⟩ := List.mem_map.mp hth
    obtain ⟨q, hq, rfl⟩ := List.mem_map.mp hp
    exact timed_request (hl q hq)
  past := by
    intro th hth now hmem
    obtain ⟨p, -, rfl⟩ := List.mem_map.mp hth
    exact absurd hmem (Multiset.notMem_zero now)

theorem Timed.cutoff {p : Db Bool} (h : Timed retention p c) (hop : nextOp p = some op)
    {cutoff : ℕ} (hc : cutoffOf op = some cutoff) : ∃ now ∈ c, cutoff = now - retention := by
  rcases p with _ | ⟨s, k⟩
  · cases hop
  · rcases s with op' | _ | _ | _ | _
    case run =>
      obtain rfl : op' = op := Option.some.inj hop
      exact h.1 op' cutoff rfl hc
    all_goals cases hop

/-- **In every run of heeded statements, the deleting statements remove trashed rows only, and those of a
sweep only rows that have been in the trash for longer than the retention period.** -/
theorem purges_remove_trash (retention : ℕ) (l : List Request) (hl : ∀ q ∈ l, Retains retention q)
    (Q : Pool sql Database ℕ Bool)
    (hr : Runs machine clocks (fun s _ db _ => Heeded db s)
      (Pool.start Database.fresh (l.map Request.prog)) Q)
    (th : Thread sql ℕ Bool) (hth : th ∈ Q.threads) (op : Op) (hop : nextOp th.prog = some op)
    (hp : Purging op) (hin : InTrash Q.store.tree op) (ch : Draw) (n : ℕ) (t' : Tree)
    (he : Q.store.tree.effect op ch = .ok (n, t')) :
    Removes Trashed Q.store.tree t' ∧ (cutoffOf op ≠ none →
      Removes (fun b o => b = true ∧ ∃ a, o = some a ∧ a + retention < Q.store.tree.now)
        Q.store.tree t') := by
  have hs := (settled_start hl).runs hr
  refine ⟨purging_removes hs.kept hp hin he, fun hcut => ?_⟩
  obtain ⟨cutoff, hc⟩ := Option.ne_none_iff_exists'.mp hcut
  obtain ⟨now, hmem, rfl⟩ := (hs.timed th hth).cutoff hop hc
  have hle := hs.past th hth now hmem
  refine (sweep_removes hs.kept hc he).mono ?_
  rintro b o ⟨hb, a, ha, hlt⟩
  exact ⟨hb, a, ha, by omega⟩

/-- Whether some program is about to issue `op`, and what `p` says of the tables before and after it. -/
def about (op : Op) (ch : Draw) (p : Tree → Tree → Bool) (Q : Pool sql Database ℕ Bool) : Bool :=
  Q.threads.any (fun th => nextOp th.prog = some op) &&
    (Q.store.tree.effect op ch).toOption.any fun x => p Q.store.tree x.2

theorem about_iff {p : Tree → Tree → Bool} (h : about op ch p Q = true) :
    ∃ th ∈ Q.threads, nextOp th.prog = some op ∧
      ∃ n t', Q.store.tree.effect op ch = .ok (n, t') ∧ p Q.store.tree t' = true := by
  rw [about, Bool.and_eq_true, List.any_eq_true, Option.any_eq_true] at h
  obtain ⟨⟨th, hth, hop⟩, ⟨n, t'⟩, he, hp⟩ := h
  refine ⟨th, hth, of_decide_eq_true hop, n, t', ?_, hp⟩
  rcases hr : Q.store.tree.effect op ch with e | x
  · rw [hr] at he
    cases he
  · rw [hr] at he
    rw [Option.some.inj he]

/-- A folder with a file in it has been in the trash for longer than ten seconds when the sweep comes. -/
theorem purges_remove_trash_sweep : ∃ Q : Pool sql Database ℕ Bool,
    Runs machine clocks (fun s _ db _ => Heeded db s)
      (Pool.start Database.fresh ([.createDrive ['a'], .createFolder ['x'] (some 0), .upload ['f'] 1 ['h'] 1,
        .trashFolder 1, .wait 100, .deleteExpiredBulk 1 10].map Request.prog)) Q ∧
    ∃ n t', Q.store.tree.effect (.expireFolders 90) { pick := {1} } = .ok (n, t') ∧
      ((Q.store.tree.folders.get 1).isSome && (t'.folders.get 1).isNone) = true ∧
      Removes Trashed Q.store.tree t' ∧
      Removes (fun b o => b = true ∧ ∃ a, o = some a ∧ a + 10 < Q.store.tree.now) Q.store.tree t' := by
  refine (exists_runs (M := machine) (l := [(0, {}), (1, {}), (1, { newFolder := 1 }), (2, {}), (3, {}),
      (4, {}), (5, {}), (5, { pick := {0} })]) (p := about (.expireFolders 90) { pick := {1} } fun t t' =>
        (t.folders.get 1).isSome && (t'.folders.get 1).isNone) (by decide +kernel)).imp fun Q h => ⟨h.1, ?_⟩
  obtain ⟨th, hth, hop, n, t', he, hp⟩ := about_iff h.2
  have hall := purges_remove_trash 10 _ (by decide) Q h.1 th hth _ hop trivial trivial _ n t' he
  exact ⟨n, t', he, hp, hall.1, hall.2 (by simp [cutoffOf])⟩

/-- **A restore between the lookup of a permanent deletion and its first statement: the file in the
restored folder is live and removed.** -/
theorem purge_removes_live : ∃ Q : Pool sql Database ℕ Bool,
    Runs machine clocks (fun _ _ _ _ => True)
      (Pool.start Database.fresh ([.createDrive ['a'], .createFolder ['x'] (some 0), .upload ['f'] 1 ['h'] 1,
        .trashFolder 1, .deletePermanently (.folder 1), .restoreItem (.folder 1)].map Request.prog)) Q ∧
    ∃ th ∈ Q.threads, nextOp th.prog = some (.deleteFolderFiles 1) ∧
      ∃ n t', Q.store.tree.effect (.deleteFolderFiles 1) {} = .ok (n, t') ∧
        ¬ Removes Trashed Q.store.tree t' := by
  refine (exists_runs (M := machine) (l := [(0, {}), (1, {}), (1, { newFolder := 1 }), (2, {}), (3, {}),
      (4, {}), (5, {}), (5, {})]) (p := about (.deleteFolderFiles 1) {} fun t t' =>
        (t.files.get 0).any (fun r => !r.isTrashed) && (t'.files.get 0).isNone)
      (by decide +kernel)).imp fun Q h => ⟨h.1, ?_⟩
  obtain ⟨th, hth, hop, n, t', he, hp⟩ := about_iff h.2
  refine ⟨th, hth, hop, n, t', he, fun hrem => ?_⟩
  rw [Bool.and_eq_true, Option.any_eq_true, Option.isNone_iff_eq_none] at hp
  obtain ⟨⟨r, hget, hlive⟩, hnone⟩ := hp
  have htr : r.isTrashed = true := hrem.files 0 r hget hnone
  simp [htr] at hlive

end OxiCloud.Folders.Purge
