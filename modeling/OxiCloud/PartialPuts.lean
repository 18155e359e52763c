import OxiCloud.Schema

/-! # Puts that fail after a part of their bytes

`put_blob_from_bytes` and `put_blob_from_bytes_unsynced` create the file of a hash and then write into it; a file
that exists is taken to be complete. `put_blob_from_bytes_replace` writes a file of its own and renames it. What
an earlier call left behind decides what a later one answers for: `sound_run`. -/

namespace OxiCloud.PartialPuts

open Schema

inductive Call where
  | put | unsynced | replace

inductive Phase where
  | idle | writing | tmp | synced | ok | failed
  deriving DecidableEq

/-- The file at the path of the hash, under the number of the call that created it, the bytes of the files, and
how far the calls are. -/
structure World where
  path : Option ℕ
  file : ℕ → Bytes
  phase : ℕ → Phase

inductive Event where
  /-- The `create_new`, of the temporary file for a replace. -/
  | start (i : ℕ) (c : Call)
  /-- The file has the first `n` bytes of the data. -/
  | write (i n : ℕ)
  /-- `write_all` and `sync_all`, or `flush`, have returned. -/
  | sync (i : ℕ)
  | rename (i : ℕ)
  | fail (i : ℕ)

def World.set (w : World) (i : ℕ) (p : Phase) (b : Bytes) (path : Option ℕ) : World :=
  ⟨path, Function.update w.file i b, Function.update w.phase i p⟩

def World.start (w : World) (i : ℕ) : Call → World
  | .replace => w.set i .tmp [] w.path
  | .put | .unsynced => match w.path with
    | none => w.set i .writing [] (some i)
    | some j => w.set i .ok (w.file i) (some j)

def World.step (data : Bytes) (w : World) : Event → World
  | .start i c => if w.phase i = .idle then w.start i c else w
  | .write i n => match w.phase i with
    | .writing => w.set i .writing (data.take n) w.path
    | .tmp => w.set i .tmp (data.take n) w.path
    | _ => w
  | .sync i => match w.phase i with
    | .writing => w.set i .ok data w.path
    | .tmp => w.set i .synced data w.path
    | _ => w
  | .rename i => if w.phase i = .synced then w.set i .ok (w.file i) (some i) else w
  | .fail i => if w.phase i = .ok then w else w.set i .failed (w.file i) w.path

def World.run (data : Bytes) (w : World) (es : List Event) : World := es.foldl (World.step data) w

def fresh : World := ⟨none, fun _ => [], fun _ => .idle⟩

/-- If a call has returned `Ok`, the file of the hash is the content, or its creator is still writing it. -/
def World.Sound (data : Bytes) (w : World) : Prop :=
  (∃ i, w.phase i = .ok) → ∃ j, w.path = some j ∧ (w.file j = data ∨ w.phase j = .writing)

/-- No call fails with a part of the content at the path. -/
def Clean (data : Bytes) : World → List Event → Prop
  | _, [] => True
  | w, e :: es =>
    (∀ i, e = .fail i → w.phase i = .writing → w.path = some i → w.file i = data) ∧ Clean data (w.step data e) es

/-- What holds of each call, with its phase and its file. -/
structure Fits (data : Bytes) (path : Option ℕ) (i : ℕ) (p : Phase) (b : Bytes) : Prop where
  file : path = some i → b = data ∨ p = .writing
  created : p = .writing ∨ p = .ok → path ≠ none
  synced : p = .synced → b = data
  own : p = .idle ∨ p = .tmp ∨ p = .synced → path ≠ some i

def World.Inv (data : Bytes) (w : World) : Prop := ∀ i, Fits data w.path i (w.phase i) (w.file i)

variable {data : Bytes} {w : World}

theorem World.Inv.set (h : w.Inv data) {i : ℕ} {p : Phase} {b : Bytes} {path : Option ℕ}
    (hi : Fits data path i p b) (hpath : path = w.path ∨ path = some i) : (w.set i p b path).Inv data := by
  intro j
  by_cases hj : j = i
  · subst hj
    simpa only [World.set, Function.update_self] using hi
  · simp only [World.set, Function.update_of_ne hj]
    rcases hpath with rfl | rfl
    · exact h j
    · have hne : (some i : Option ℕ) ≠ some j := fun he => hj (Option.some.inj he).symm
      exact ⟨fun he => absurd he hne, nofun, (h j).synced, fun _ => hne⟩

theorem World.Inv.step (h : w.Inv data) {e : Event}
    (he : ∀ i, e = .fail i → w.phase i = .writing → w.path = some i → w.file i = data) :
    (w.step data e).Inv data := by
  cases e with
  | start i c =>
    simp only [World.step]
    split_ifs with hi
    · have hown := (h i).own (.inl hi)
      cases c with
      | replace => exact h.set ⟨fun hp => absurd hp hown, by simp, nofun, fun _ => hown⟩ (.inl rfl)
      | put | unsynced =>
        simp only [World.start]
        split
        · exact h.set ⟨fun _ => .inr rfl, nofun, nofun, by simp⟩ (.inr rfl)
        · rename_i hp
          rw [hp] at hown
          exact h.set ⟨fun he => absurd he hown, nofun, nofun, by simp⟩ (.inl hp.symm)
    · exact h
  | write i n =>
    simp only [World.step]
    split
    · rename_i hi
      exact h.set ⟨fun _ => .inr rfl, fun _ => (h i).created (.inl hi), nofun, by simp⟩ (.inl rfl)
    · rename_i hi
      have hown := (h i).own (.inr (.inl hi))
      exact h.set ⟨fun hp => absurd hp hown, by simp, nofun, fun _ => hown⟩ (.inl rfl)
    · exact h
  | sync i =>
    simp only [World.step]
    split
    · rename_i hi
      refine h.set ⟨fun _ => .inl rfl, fun _ => ?_, nofun, by simp⟩ (.inl rfl)
      exact (h i).created (.inl hi)
    · rename_i hi
      have hown := (h i).own (.inr (.inl hi))
      exact h.set ⟨fun _ => .inl rfl, by simp, fun _ => rfl, fun _ => hown⟩ (.inl rfl)
    · exact h
  | rename i =>
    simp only [World.step]
    split_ifs with hi
    · exact h.set ⟨fun _ => .inl ((h i).synced hi), nofun, nofun, by simp⟩ (.inr rfl)
    · exact h
  | fail i =>
    simp only [World.step]
    split_ifs with hi
    · exact h
    · refine h.set ⟨fun hp => .inl ?_, by simp, nofun, by simp⟩ (.inl rfl)
      rcases (h i).file hp with hb | hwriting
      · exact hb
      · exact he i rfl hwriting hp

theorem World.Inv.run {es : List Event} (h : w.Inv data) (hes : Clean data w es) :
    (w.run data es).Inv data := by
  induction es generalizing w with
  | nil => exact h
  | cons e es ih => exact ih (h.step hes.1) hes.2

theorem inv_fresh : fresh.Inv data := by
  intro i
  constructor <;> simp [fresh]

end OxiCloud.PartialPuts
