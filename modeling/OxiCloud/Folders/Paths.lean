import OxiCloud.Folders.Requests
import OxiCloud.Folders.Upkeep

/-! # Paths and drives

Requests served one after the other keep every path, every `lpath` and every `drive_id` what the parent
links make them (`requests_placed`), as long as no folder is moved into its own subtree. The statements
keep it one by one (`Sound.effect`), with one exception: the `INSERT` of `create_folder` is given the
drive that was read before. Nothing comes between the two when the request is not interrupted. -/

namespace OxiCloud.Folders.Paths

open Lib.Programs Lib.Programs.Prog Lib.Forests Lib.Tables Schema Folders Folders.Tree
open Folders.Requests

variable {db db' : Database} {s : Stmt} {ch : Draw}

/-! ### Triggers and flushes leave the tables alone -/

theorem bumpOrEnqueue_tree (locked : Finset FolderId) (targets : List Target) :
    (db.bumpOrEnqueue locked targets).tree = db.tree := rfl

theorem foldl_bumpOrEnqueue_tree (locked : Finset FolderId) (l : List (List Target)) :
    (l.foldl (Database.bumpOrEnqueue locked) db).tree = db.tree := by
  induction l generalizing db with
  | nil => rfl
  | cons a l ih => rw [List.foldl_cons, ih, bumpOrEnqueue_tree]

theorem fire_tree (op : Op) (t' : Tree) : (db.fire op ch t').tree = t' :=
  foldl_bumpOrEnqueue_tree ..

/-- A statement changes the tables as `Tree.effect` says, or not at all. -/
theorem exec_tree (s : Stmt) (ch : Draw) (db : Database) : (exec s ch db).2.tree = db.tree ∨
    ∃ op n, s = .run op ∧ db.tree.effect op ch = .ok (n, (exec s ch db).2.tree) := by
  rcases s with op | _ | p | i | _
  · rcases h : db.tree.effect op ch with e | ⟨n, t'⟩
    · left
      simp [exec, Database.run, h]
    · right
      refine ⟨op, n, rfl, ?_⟩
      simp [exec, Database.run, h, fire_tree]
  · exact .inl rfl
  · exact .inl rfl
  · exact .inl rfl
  · left
    rw [exec]
    split_ifs <;> rfl

/-- The statement is orderly. -/
def Orderly (db : Database) : Stmt → Prop
  | .run op => db.tree.Orderly op
  | _ => True

instance (db : Database) (s : Stmt) : Decidable (Orderly db s) := by
  unfold Orderly
  split <;> infer_instance

theorem exec_sound (hs : db.tree.Sound) (ho : Orderly db s) : (exec s ch db).2.tree.Sound := by
  rcases exec_tree s ch db with h | ⟨op, n, rfl, h⟩
  · rwa [h]
  · exact hs.effect ho h

/-! ### Runs of requests -/

/-- No folder is moved into its own subtree. -/
def outward : Stmt → Draw → Database → Prop
  | .run (.moveFolder id (some p)), _, db => ¬ Climbs db.tree.par p id
  | _, _, _ => True

instance (s : Stmt) (ch : Draw) (db : Database) : Decidable (outward s ch db) := by
  unfold outward
  split <;> infer_instance

/-- A statement other than the `INSERT` of a folder. -/
def NoInsert : Stmt → Prop
  | .run (.insertFolder _ _ _) => False
  | _ => True

theorem orderly_of_outward (h : outward s ch db) (hn : NoInsert s) : Orderly db s := by
  rcases s with op | _ | _ | _ | _
  · rcases op with _ | _ | _ | _ | ⟨id, _ | p⟩
    case insertFolder => exact hn.elim
    case moveFolder.some => exact h
    all_goals trivial
  all_goals trivial

/-- Only `create_folder` inserts a folder. -/
theorem request_only {q : Request} (h : ∀ name parent, q ≠ .createFolder name parent) :
    q.prog.Only NoInsert := by
  refine (prog_only q).mono fun s hs => ?_
  rcases s with op | _ | _ | _ | _
  · rcases op with _ | _ | _
    case insertFolder =>
      rcases q <;> simp [Request.MayIssue] at hs
      exact absurd rfl (h _ _)
    all_goals trivial
  all_goals trivial

/-- `create_folder`, not interrupted, inserts into the drive its parent is in. -/
theorem createFolder_sound {name : Text} {parent : Option FolderId} {tr : List Stmt} {ok : Bool}
    (hr : Run machine outward (Request.createFolder name parent).prog db tr ok db')
    (hs : db.tree.Sound) : db'.tree.Sound := by
  rcases parent with _ | p
  · obtain ⟨-, -, rfl⟩ := run_ret.mp hr
    exact hs
  · obtain ⟨ch, r, db₁, tr', -, he, -, hr⟩ := run_call.mp hr
    have hread : exec (.selectDrive p) ch db = (r, db₁) := Option.some.inj he
    obtain rfl : db = db₁ := congrArg Prod.snd hread
    rcases r with e | _ | d
    · obtain ⟨-, -, rfl⟩ := run_ret.mp hr
      exact hs
    · obtain ⟨-, -, rfl⟩ := run_ret.mp hr
      exact hs
    · have hd : (db.tree.folders.get p).map Folder.driveId = some d := by
        have h1 := congrArg Prod.fst hread
        simp only [exec] at h1
        split_ifs at h1
        exact Except.ok.inj h1
      obtain ⟨ch', r, db₁, tr', -, he, -, hr⟩ := run_call.mp hr
      obtain ⟨-, -, rfl⟩ := run_ret.mp hr
      have ho : Orderly db (.run (.insertFolder name p d)) := by
        intro q hq
        rw [hq] at hd
        exact Option.some.inj hd
      rw [← (Prod.mk.inj (Option.some.inj he)).2]
      exact exec_sound hs ho

theorem request_sound {q : Request} {tr : List Stmt} {ok : Bool}
    (hr : Run machine outward q.prog db tr ok db') (hs : db.tree.Sound) : db'.tree.Sound := by
  by_cases hq : ∃ name parent, q = .createFolder name parent
  · obtain ⟨name, parent, rfl⟩ := hq
    exact createFolder_sound hr hs
  · have hn : ∀ name parent, q ≠ .createFolder name parent := fun name parent h => hq ⟨name, parent, h⟩
    refine Run.keeps (I := fun db => db.tree.Sound) (hr.with_only (request_only hn)) ?_ hs
    intro s ch db r db' hg he hs
    rw [← (Prod.mk.inj (Option.some.inj he)).2]
    exact exec_sound hs (orderly_of_outward hg.1 hg.2)

/-! ### Sequences of requests -/

/-- Requests served one after the other, none of them interrupted and none moving a folder into its own
subtree. -/
inductive Serves : Database → List Request → Database → Prop where
  | nil (db : Database) : Serves db [] db
  | cons {db db₁ db₂ : Database} {q : Request} {l : List Request} {tr : List Stmt} {ok : Bool}
      (hr : Run machine outward q.prog db tr ok db₁) (h : Serves db₁ l db₂) : Serves db (q :: l) db₂

/-- **Requests served one after the other keep every path and every drive what the parent makes them.** -/
theorem requests_placed (l : List Request) (db db' : Database) (hs : db.tree.Sound)
    (h : Serves db l db') : db'.tree.Placed := by
  induction h with
  | nil db => exact hs.placed
  | cons hr _ ih => exact ih (request_sound hr hs)

/-- Serve requests under the given choices. -/
def serveAll : List (Request × List Draw) → Database → Option Database
  | [], db => some db
  | q :: l, db => (replay machine outward q.2 q.1.prog db).bind fun x => serveAll l x.2

theorem serveAll_serves : ∀ {l : List (Request × List Draw)} {db db' : Database},
    serveAll l db = some db' → Serves db (l.map Prod.fst) db'
  | [], db, db', h => by
    obtain rfl : db = db' := Option.some.inj h
    exact .nil db
  | q :: l, db, db', h => by
    obtain ⟨⟨ok, db₁⟩, h1, h2⟩ := Option.bind_eq_some_iff.mp h
    obtain ⟨tr, hr⟩ := replay_run h1
    exact .cons hr (serveAll_serves h2)

/-- Two drives; a folder with a folder and a file in it is moved to the other drive, renamed there,
copied back, trashed and restored, and the copy is deleted. -/
def errands : List (Request × List Draw) :=
  [(.createDrive ['a'], [{ newDrive := 0, newFolder := 0 }]),
    (.createDrive ['b'], [{ newDrive := 1, newFolder := 1 }]),
    (.createFolder ['x'] (some 0), [{}, { newFolder := 2 }]),
    (.createFolder ['y'] (some 2), [{}, { newFolder := 3 }]),
    (.upload ['f'] 3 ['h'] 1, [{ newFile := 0 }]),
    (.moveFolder 2 (some 1), [{}]),
    (.renameFolder 2 ['z'], [{}]),
    (.copyFolderTree 2 (some 0) none, [{ folderCopies := [(2, 4), (3, 5)], fileCopies := [(0, 1)] }]),
    (.trashFolder 2, [{}]),
    (.restoreItem (.folder 2), [{}, {}]),
    (.trashFolder 4, [{}]),
    (.deletePermanently (.folder 4), [{}, {}, {}])]

/-- The folder `y` ends up in the drive `b` with the path `b/z/y`. -/
theorem requests_placed_errands : ∃ db', Serves .fresh (errands.map Prod.fst) db' ∧ db'.tree.Placed ∧
    (db'.tree.folders.get 3).map (fun r => (r.path, r.lpath, r.driveId)) =
      some (['b', '/', 'z', '/', 'y'], [1, 2, 3], 1) := by
  have h : (serveAll errands .fresh).any (fun db =>
      (db.tree.folders.get 3).map (fun r => (r.path, r.lpath, r.driveId)) =
        some (['b', '/', 'z', '/', 'y'], [1, 2, 3], 1)) = true := by
    decide +kernel
  obtain ⟨db', h1, h2⟩ := (Option.any_eq_true _ _).mp h
  have hserves := serveAll_serves h1
  exact ⟨db', hserves, requests_placed _ _ _ sound_empty hserves, of_decide_eq_true h2⟩

end OxiCloud.Folders.Paths
