import Mathlib

/-! # Memoised computations

A computation over a state that holds caches: it returns a value and the state with the caches as it
leaves them. `memoised c k load` answers from the cache `c` and, where `c` has nothing for `k`, runs
`load` and remembers what it returned.

`Returns I m a` says that `m`, started with caches that satisfy `I`, returns `a` and keeps `I`. Taken
for `I` that every remembered value is the true one, it is what makes caching invisible: it passes
through sequences (`Returns.bind`) and through the caches themselves (`Returns.memoised`). -/

namespace OxiCloud.Lib.Memos

/-- A computation over a state. -/
def Loading (S α : Type) : Type := S → α × S

namespace Loading

variable {S α β : Type}

instance : Monad (Loading S) where
  pure a := fun s => (a, s)
  bind m f := fun s => f (m s).1 (m s).2

theorem bind_apply (m : Loading S α) (f : α → Loading S β) (s : S) :
    (m >>= f) s = f (m s).1 (m s).2 := rfl

end Loading

/-- A cache kept in a state. -/
structure Slot (S K V : Type) where
  get : S → K → Option V
  put : K → V → S → S

variable {S K V α β : Type}

/-- Answer from the cache, or load and remember. -/
def memoised (c : Slot S K V) (k : K) (load : Loading S V) : Loading S V := fun s =>
  match c.get s k with
  | some v => (v, s)
  | none => ((load s).1, c.put k (load s).1 (load s).2)

/-- Answer from the cache, or load and remember what there is. -/
def memoisedSome (c : Slot S K V) (k : K) (load : Loading S (Option V)) : Loading S (Option V) := fun s =>
  match c.get s k with
  | some v => (some v, s)
  | none => ((load s).1, (load s).1.elim (load s).2 fun v => c.put k v (load s).2)

/-- Started in a state with `I`, the computation returns `a` and keeps `I`. -/
def Returns (I : S → Prop) (m : Loading S α) (a : α) : Prop := ∀ s, I s → (m s).1 = a ∧ I (m s).2

variable {I : S → Prop} {m : Loading S α} {f : α → Loading S β} {a : α} {b : β} {c : Slot S K V} {k : K}
  {v : V}

theorem Returns.pure (a : α) : Returns I (Pure.pure a) a := fun _ hs => ⟨rfl, hs⟩

theorem Returns.bind (hm : Returns I m a) (hf : Returns I (f a) b) : Returns I (m >>= f) b := by
  intro s hs
  obtain ⟨ha, hI⟩ := hm s hs
  rw [Loading.bind_apply, ha]
  exact hf _ hI

theorem Returns.ite {p : Prop} [Decidable p] {m' : Loading S α} {a' : α} (h : p → Returns I m a)
    (h' : ¬ p → Returns I m' a') : Returns I (if p then m else m') (if p then a else a') := by
  by_cases hp : p
  · rw [if_pos hp, if_pos hp]
    exact h hp
  · rw [if_neg hp, if_neg hp]
    exact h' hp

/-- **A cache that only holds `v` under `k` is invisible to a load of `v`.** -/
theorem Returns.memoised {load : Loading S V} (hget : ∀ s, I s → ∀ w, c.get s k = some w → w = v)
    (hput : ∀ s, I s → I (c.put k v s)) (hload : Returns I load v) : Returns I (memoised c k load) v := by
  intro s hs
  unfold Memos.memoised
  rcases hk : c.get s k with _ | w
  · obtain ⟨hv, hI⟩ := hload s hs
    rw [hv]
    exact ⟨rfl, hput _ hI⟩
  · exact ⟨hget s hs w hk, hs⟩

theorem Returns.memoisedSome {load : Loading S (Option V)} {o : Option V}
    (hget : ∀ s, I s → ∀ w, c.get s k = some w → some w = o)
    (hput : ∀ s, I s → ∀ w, o = some w → I (c.put k w s)) (hload : Returns I load o) :
    Returns I (memoisedSome c k load) o := by
  intro s hs
  unfold Memos.memoisedSome
  rcases hk : c.get s k with _ | w
  · obtain ⟨hv, hI⟩ := hload s hs
    rw [hv]
    refine ⟨rfl, ?_⟩
    rcases ho : o with _ | w
    · exact hI
    · exact hput _ hI w ho
  · exact ⟨hget s hs w hk, hs⟩

/-! ### Caches as partial maps -/

/-- A cache: what it remembers under each key. -/
abbrev Memo (K V : Type) := K → Option V

/-- Everything remembered is what `f` gives. -/
def Memo.True (f : K → V) (c : Memo K V) : Prop := ∀ k v, c k = some v → v = f k

theorem Memo.true_empty (f : K → V) : Memo.True f fun _ => none := fun _ _ h => nomatch h

theorem Memo.True.update [DecidableEq K] {f : K → V} {c : Memo K V} (h : Memo.True f c) (k : K) :
    Memo.True f (Function.update c k (some (f k))) := by
  intro k' v hv
  by_cases hk : k' = k
  · subst hk
    rw [Function.update_self] at hv
    exact (Option.some.inj hv).symm
  · rw [Function.update_of_ne hk] at hv
    exact h k' v hv

end OxiCloud.Lib.Memos
