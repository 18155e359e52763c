import OxiCloud.BlobCache
import OxiCloud.Encryption

/-! # Stacks of backend decorators

A blob backend is a base backend under a stack of decorators. `put_blob_from_bytes` keeps an object the base
already has; `put_blob_from_bytes_replace` is to overwrite it. A decorator that does not define the second
inherits a default, which calls the first: those are the swappable, the retrying and the caching one. The
timeout and the encryption hand it on.

A stack is a list of layers, the outermost first, over a base that counts its writes. Calls can fail at every
level and leave the base changed or not. `replace_rewrites` says that a successful replace wrote the base
iff every layer hands it on or there was no object before. -/

namespace OxiCloud.BackendStack

open Schema Encryption BlobCache Function

variable {K H : Type} [DecidableEq H] {C : Crypto K H}

/-! ### The layers -/

/-- The decorators. -/
inductive Layer (C : Crypto K H) where
  | swappable
  | cached
  | retry
  | timeout
  | encrypted (L : PairList C)

/-- The objects of the base, how often each was written, and the cache of the layer at each depth. -/
structure StackState (H : Type) where
  objects : Objects H
  writes : H → ℕ
  caches : ℕ → Cache H

def StackState.write (s : StackState H) (h : H) (data : Bytes) : StackState H where
  objects := Function.update s.objects h (some data)
  writes := Function.update s.writes h (s.writes h + 1)
  caches := s.caches

def StackState.setCache (s : StackState H) (i : ℕ) (c : Cache H) : StackState H :=
  { s with caches := Function.update s.caches i c }

/-- Attempts that fail, and then the last one. -/
inductive Attempts {σ : Type} (call : σ → Bool → σ → Prop) : σ → Bool → σ → Prop where
  | last {s s' : σ} {ok : Bool} (h : call s ok s') : Attempts call s ok s'
  | again {s s₁ s' : σ} {ok : Bool} (h : call s false s₁) (rest : Attempts call s₁ ok s') :
      Attempts call s ok s'

/-- A call that is given up after a time; it may have had its effect. -/
def Timed {σ : Type} (call : σ → Bool → σ → Prop) (s : σ) (ok : Bool) (s' : σ) : Prop :=
  call s ok s' ∨ ok = false ∧ (s' = s ∨ ∃ ok', call s ok' s')

/-- `put_blob_from_bytes` of the base: it keeps an object it has. -/
def basePut (s : StackState H) (h : H) (data : Bytes) (ok : Bool) (s' : StackState H) : Prop :=
  if (s.objects h).isSome then s' = s else s' = s.write h data ∨ ok = false ∧ s' = s

/-- `put_blob_from_bytes_replace` of the base: it overwrites. -/
def baseReplace (s : StackState H) (h : H) (data : Bytes) (ok : Bool) (s' : StackState H) : Prop :=
  s' = s.write h data ∨ ok = false ∧ s' = s

/-- `put_blob_from_bytes` through the stack, with its result. -/
def put : List (Layer C) → H → Bytes → StackState H → Bool → StackState H → Prop
  | [], h, data, s, ok, s' => basePut s h data ok s'
  | .swappable :: ls, h, data, s, ok, s' => put ls h data s ok s'
  | .cached :: ls, h, data, s, ok, s' =>
    (ok = true ∧ ∃ s₁ w, put ls h data s true s₁ ∧ Untorn w ∧
      s' = s₁.setCache ls.length ((s₁.caches ls.length).cacheBytesWriteThrough h data w)) ∨
    (ok = false ∧ put ls h data s false s')
  | .retry :: ls, h, data, s, ok, s' => Attempts (put ls h data) s ok s'
  | .timeout :: ls, h, data, s, ok, s' => Timed (put ls h data) s ok s'
  | .encrypted L :: ls, h, data, s, ok, s' =>
    ∃ nonce, put ls h (L.backend.frame C nonce data) s ok s'

/-- `put_blob_from_bytes_replace` through the stack. The layers without one of their own have the default of
the trait. -/
def replace : List (Layer C) → H → Bytes → StackState H → Bool → StackState H → Prop
  | [], h, data, s, ok, s' => baseReplace s h data ok s'
  | .swappable :: ls, h, data, s, ok, s' => put (.swappable :: ls) h data s ok s'
  | .cached :: ls, h, data, s, ok, s' => put (.cached :: ls) h data s ok s'
  | .retry :: ls, h, data, s, ok, s' => put (.retry :: ls) h data s ok s'
  | .timeout :: ls, h, data, s, ok, s' => Timed (replace ls h data) s ok s'
  | .encrypted L :: ls, h, data, s, ok, s' =>
    ∃ nonce, replace ls h (L.backend.frame C nonce data) s ok s'

/-- The file the cache serves without a fetch. -/
def hit (c : Cache H) (h : H) : Option Bytes := if (c.index h).isSome then c.disk h else none

/-- A successful full read through the stack, and the bytes it returns. -/
def get : List (Layer C) → H → StackState H → Bytes → StackState H → Prop
  | [], h, s, b, s' => s.objects h = some b ∧ s' = s
  | .swappable :: ls, h, s, b, s' => get ls h s b s'
  | .cached :: ls, h, s, b, s' =>
    (hit (s.caches ls.length) h = some b ∧ s' = s) ∨
    ∃ s₁, get ls h s b s₁ ∧
      s' = s₁.setCache ls.length (((s₁.caches ls.length).invalidate h).fill h b)
  | .retry :: ls, h, s, b, s' => get ls h s b s'
  | .timeout :: ls, h, s, b, s' => get ls h s b s'
  | .encrypted L :: ls, h, s, b, s' => ∃ raw, get ls h s raw s' ∧ L.read h raw = .ok b

/-- The layers that hand a replace on. -/
def Layer.Forwards : Layer C → Prop
  | .timeout => True
  | .encrypted _ => True
  | _ => False

/-! ### Writes to the base -/

section Writes
variable {h : H} {data : Bytes} {s s' : StackState H} {ok : Bool}

/-- What a put does to the base: an object that is there stays as it is; else it is written once, or the call
fails and nothing happens. -/
structure PutOK (h : H) (s : StackState H) (ok : Bool) (s' : StackState H) : Prop where
  kept : s.objects h ≠ none → s'.objects h = s.objects h ∧ s'.writes h = s.writes h
  fresh : s.objects h = none → (s'.objects h ≠ none ∧ s.writes h < s'.writes h) ∨
    (ok = false ∧ s'.objects h = none ∧ s'.writes h = s.writes h)

section
omit [DecidableEq H]

theorem PutOK.refl (h : H) (s : StackState H) : PutOK h s false s :=
  ⟨fun _ => ⟨rfl, rfl⟩, fun hs => .inr ⟨rfl, hs, rfl⟩⟩

theorem PutOK.give_up (hp : PutOK h s ok s') : PutOK h s false s' := by
  refine ⟨hp.kept, fun hs => ?_⟩
  rcases hp.fresh hs with hw | ⟨-, hrest⟩
  · exact .inl hw
  · exact .inr ⟨rfl, hrest⟩

theorem PutOK.trans {s₁ : StackState H} (h1 : PutOK h s false s₁) (h2 : PutOK h s₁ ok s') :
    PutOK h s ok s' := by
  refine ⟨fun hs => ?_, fun hs => ?_⟩
  · obtain ⟨ho, hw⟩ := h1.kept hs
    obtain ⟨ho', hw'⟩ := h2.kept (by rwa [ho])
    exact ⟨ho'.trans ho, hw'.trans hw⟩
  · rcases h1.fresh hs with ⟨ho, hw⟩ | ⟨-, ho, hw⟩
    · obtain ⟨ho', hw'⟩ := h2.kept ho
      exact .inl ⟨by rwa [ho'], by rwa [hw']⟩
    · rcases h2.fresh ho with ⟨ho', hw'⟩ | ⟨hok, ho', hw'⟩
      · exact .inl ⟨ho', by omega⟩
      · exact .inr ⟨hok, ho', hw'.trans hw⟩

variable {call : StackState H → Bool → StackState H → Prop}

theorem Attempts.putOK (hcall : ∀ {s ok s'}, call s ok s' → PutOK h s ok s') (ha : Attempts call s ok s') :
    PutOK h s ok s' := by
  induction ha with
  | last h1 => exact hcall h1
  | again h1 _ ih => exact (hcall h1).trans ih

theorem Timed.putOK (hcall : ∀ {s ok s'}, call s ok s' → PutOK h s ok s') (ht : Timed call s ok s') :
    PutOK h s ok s' := by
  rcases ht with h1 | ⟨rfl, rfl | ⟨ok', h1⟩⟩
  · exact hcall h1
  · exact .refl h _
  · exact (hcall h1).give_up

end

theorem basePut_ok (hp : basePut s h data ok s') : PutOK h s ok s' := by
  unfold basePut at hp
  split_ifs at hp with hsome
  · subst hp
    exact ⟨fun _ => ⟨rfl, rfl⟩, fun hs => by rw [hs] at hsome; cases hsome⟩
  · have hnone : s.objects h = none := by simpa using hsome
    refine ⟨fun hs => absurd hnone hs, fun _ => ?_⟩
    rcases hp with rfl | ⟨rfl, rfl⟩
    · refine .inl ⟨?_, ?_⟩
      · simp [StackState.write]
      · simp [StackState.write]
    · exact .inr ⟨rfl, hnone, rfl⟩

variable {ls : List (Layer C)}

theorem put_ok (hp : put ls h data s ok s') : PutOK h s ok s' := by
  induction ls generalizing data s ok s' with
  | nil => exact basePut_ok hp
  | cons l ls ih =>
    cases l with
    | swappable => exact ih hp
    | cached =>
      rcases hp with ⟨rfl, s₁, w, h1, -, rfl⟩ | ⟨rfl, h1⟩
      · exact ⟨(ih h1).kept, (ih h1).fresh⟩
      · exact ih h1
    | retry => exact Attempts.putOK ih hp
    | timeout => exact Timed.putOK ih hp
    | encrypted L =>
      obtain ⟨nonce, h1⟩ := hp
      exact ih h1

/-- A stack with a layer that does not hand a replace on treats it as a put. -/
theorem replace_putOK (hnf : ¬ ∀ l ∈ ls, l.Forwards) (hr : replace ls h data s ok s') : PutOK h s ok s' := by
  induction ls generalizing data s ok s' with
  | nil => exact absurd (fun _ hl => (nomatch hl)) hnf
  | cons l ls ih =>
    have hrest : l.Forwards → ¬ ∀ l ∈ ls, l.Forwards := fun hl hall =>
      hnf (List.forall_mem_cons.mpr ⟨hl, hall⟩)
    cases l with
    | swappable | cached | retry =>
      exact put_ok hr
    | timeout => exact Timed.putOK (ih (hrest trivial)) hr
    | encrypted L =>
      obtain ⟨nonce, h1⟩ := hr
      exact ih (hrest trivial) h1

/-- A stack whose layers all hand a replace on writes the base whenever it succeeds. -/
theorem replace_writes (hf : ∀ l ∈ ls, l.Forwards) (hr : replace ls h data s true s') :
    s.writes h < s'.writes h := by
  induction ls generalizing data with
  | nil =>
    rcases hr with rfl | ⟨hok, -⟩
    · simp [StackState.write]
    · cases hok
  | cons l ls ih =>
    rw [List.forall_mem_cons] at hf
    cases l with
    | swappable | cached | retry => exact absurd hf.1 id
    | timeout =>
      rcases hr with h1 | ⟨hok, -⟩
      · exact ih hf.2 h1
      · cases hok
    | encrypted L =>
      obtain ⟨nonce, h1⟩ := hr
      exact ih hf.2 h1

end Writes

/-! ### Reading back -/

section Reads
variable {h : H}

/-- Every layer reads `h` as bytes that satisfy `P`: the base has such an object, and so do the caches that
have a file. -/
def Reads : List (Layer C) → H → (Bytes → Prop) → StackState H → Prop
  | [], h, P, s => ∃ b, s.objects h = some b ∧ P b
  | .swappable :: ls, h, P, s => Reads ls h P s
  | .cached :: ls, h, P, s => Reads ls h P s ∧ ∀ b, (s.caches ls.length).disk h = some b → P b
  | .retry :: ls, h, P, s => Reads ls h P s
  | .timeout :: ls, h, P, s => Reads ls h P s
  | .encrypted L :: ls, h, P, s => Reads ls h (fun raw => ∃ b, L.read h raw = .ok b ∧ P b) s

/-- Neither the base nor a cache has anything under `h`. -/
def Free (h : H) (s : StackState H) : Prop := s.objects h = none ∧ ∀ i, (s.caches i).disk h = none

variable {P : Bytes → Prop} {data : Bytes} {s s' : StackState H} {ok : Bool} {b : Bytes}

variable {ls : List (Layer C)}

theorem reads_congr (ho : s'.objects = s.objects)
    (hc : ∀ i < ls.length, s'.caches i = s.caches i) (hr : Reads ls h P s) : Reads ls h P s' := by
  induction ls generalizing P with
  | nil =>
    obtain ⟨b, hb, hP⟩ := hr
    exact ⟨b, by rw [ho, hb], hP⟩
  | cons l ls ih =>
    have ih' := fun P => ih (P := P) fun i hi => hc i (Nat.lt_succ_of_lt hi)
    cases l with
    | cached =>
      refine ⟨ih' _ hr.1, fun b hb => hr.2 b ?_⟩
      rwa [← hc ls.length (Nat.lt_succ_self _)]
    | _ => exact ih' _ hr

theorem Reads.sound (hr : Reads ls h P s) (hg : get ls h s b s') : P b := by
  induction ls generalizing P s b s' with
  | nil =>
    obtain ⟨b', hb', hP⟩ := hr
    rw [hg.1, Option.some.injEq] at hb'
    exact hb' ▸ hP
  | cons l ls ih =>
    cases l with
    | swappable | retry | timeout => exact ih hr hg
    | cached =>
      rcases hg with ⟨hhit, -⟩ | ⟨s₁, hg, -⟩
      · unfold hit at hhit
        split_ifs at hhit
        exact hr.2 b hhit
      · exact ih hr.1 hg
    | encrypted L =>
      obtain ⟨raw, hraw, hread⟩ := hg
      obtain ⟨b', hread', hP⟩ := ih hr hraw
      rw [hread, Except.ok.injEq] at hread'
      exact hread' ▸ hP

theorem Reads.exists_get (hr : Reads ls h P s) : ∃ b s', get ls h s b s' := by
  induction ls generalizing P with
  | nil =>
    obtain ⟨b, hb, -⟩ := hr
    exact ⟨b, s, hb, rfl⟩
  | cons l ls ih =>
    cases l with
    | swappable | retry | timeout => exact ih hr
    | cached =>
      obtain ⟨b, s₁, hg⟩ := ih hr.1
      exact ⟨b, _, .inr ⟨s₁, hg, rfl⟩⟩
    | encrypted L =>
      obtain ⟨raw, s', hg⟩ := ih hr
      have hinner : Reads ls h (fun raw => ∃ b, L.read h raw = .ok b ∧ P b) s := hr
      obtain ⟨b, hread, -⟩ := Reads.sound hinner hg
      exact ⟨b, s', raw, hg, hread⟩

theorem put_caches {i : ℕ} (hi : ls.length ≤ i) (hp : put ls h data s ok s') :
    s'.caches i = s.caches i := by
  induction ls generalizing data s ok s' with
  | nil =>
    unfold put basePut at hp
    split_ifs at hp
    · rw [hp]
    · rcases hp with rfl | ⟨-, rfl⟩ <;> rfl
  | cons l ls ih =>
    have hi' : ls.length ≤ i := Nat.le_of_succ_le hi
    cases l with
    | swappable => exact ih hi' hp
    | cached =>
      rcases hp with ⟨rfl, s₁, w, h1, -, rfl⟩ | ⟨rfl, h1⟩
      · have hne : i ≠ ls.length := Nat.ne_of_gt hi
        dsimp only [StackState.setCache]
        rw [update_of_ne hne]
        exact ih hi' h1
      · exact ih hi' h1
    | retry =>
      induction hp with
      | last h1 => exact ih hi' h1
      | again h1 _ ih' => exact ih'.trans (ih hi' h1)
    | timeout =>
      rcases hp with h1 | ⟨-, rfl | ⟨ok', h1⟩⟩
      · exact ih hi' h1
      · rfl
      · exact ih hi' h1
    | encrypted L =>
      obtain ⟨nonce, h1⟩ := hp
      exact ih hi' h1

/-- Nothing is stored under `h` yet, or every layer reads it as `P`. -/
def Settling (ls : List (Layer C)) (h : H) (P : Bytes → Prop) (s : StackState H) : Prop :=
  Free h s ∨ Reads ls h P s

variable {call : StackState H → Bool → StackState H → Prop}

theorem Attempts.settling (hcall : ∀ {s ok s'}, Settling ls h P s → call s ok s' →
      Settling ls h P s' ∧ (ok = true → Reads ls h P s'))
    (hs : Settling ls h P s) (ha : Attempts call s ok s') :
    Settling ls h P s' ∧ (ok = true → Reads ls h P s') := by
  induction ha with
  | last h1 => exact hcall hs h1
  | again h1 _ ih => exact ih (hcall hs h1).1

theorem Timed.settling (hcall : ∀ {s ok s'}, Settling ls h P s → call s ok s' →
      Settling ls h P s' ∧ (ok = true → Reads ls h P s'))
    (hs : Settling ls h P s) (ht : Timed call s ok s') :
    Settling ls h P s' ∧ (ok = true → Reads ls h P s') := by
  rcases ht with h1 | ⟨rfl, rfl | ⟨ok', h1⟩⟩
  · exact hcall hs h1
  · exact ⟨hs, fun hok => by cases hok⟩
  · exact ⟨(hcall hs h1).1, fun hok => by cases hok⟩

theorem Reads.written (hP : P data) : Reads ([] : List (Layer C)) h P (s.write h data) :=
  ⟨data, update_self _ _ _, hP⟩

theorem basePut_settling (hP : P data) (hs : Settling ([] : List (Layer C)) h P s)
    (hp : basePut s h data ok s') :
    Settling ([] : List (Layer C)) h P s' ∧ (ok = true → Reads ([] : List (Layer C)) h P s') := by
  unfold basePut at hp
  split_ifs at hp with hsome
  · subst hp
    have hr : Reads ([] : List (Layer C)) h P s' := hs.resolve_left fun hfree => by
      rw [hfree.1] at hsome
      cases hsome
    exact ⟨.inr hr, fun _ => hr⟩
  · rcases hp with rfl | ⟨rfl, rfl⟩
    · exact ⟨.inr (.written hP), fun _ => .written hP⟩
    · exact ⟨hs, fun hok => by cases hok⟩

/-- A put of bytes that satisfy `P` settles the stack, and has done so when it succeeds. -/
theorem put_settling (hP : P data) (hs : Settling ls h P s)
    (hp : put ls h data s ok s') : Settling ls h P s' ∧ (ok = true → Reads ls h P s') := by
  induction ls generalizing P data s ok s' with
  | nil => exact basePut_settling hP hs hp
  | cons l ls ih =>
    cases l with
    | swappable => exact ih hP hs hp
    | cached =>
      have hinner : Settling ls h P s := by
        rcases hs with hfree | hr
        · exact .inl hfree
        · exact .inr hr.1
      have hold : ∀ b, (s.caches ls.length).disk h = some b → P b := by
        rcases hs with hfree | hr
        · intro b hb
          rw [hfree.2] at hb
          cases hb
        · exact hr.2
      rcases hp with ⟨rfl, s₁, w, h1, hw, rfl⟩ | ⟨rfl, h1⟩
      · have hr₁ := (ih hP hinner h1).2 rfl
        have hr : Reads (.cached :: ls) h P
            (s₁.setCache ls.length ((s₁.caches ls.length).cacheBytesWriteThrough h data w)) := by
          refine ⟨reads_congr (s := s₁) rfl (fun i hi => update_of_ne (Nat.ne_of_lt hi) _ _) hr₁,
            fun b hb => ?_⟩
          dsimp only [StackState.setCache] at hb
          rw [update_self] at hb
          dsimp only [Cache.cacheBytesWriteThrough] at hb
          rw [update_self, put_caches le_rfl h1] at hb
          rcases hw with rfl | rfl
          · cases hb
            exact hP
          · exact hold b hb
        exact ⟨.inr hr, fun _ => hr⟩
      · refine ⟨?_, fun hok => by cases hok⟩
        rcases (ih hP hinner h1).1 with hfree | hr
        · exact .inl hfree
        · refine .inr ⟨hr, fun b hb => hold b ?_⟩
          rwa [put_caches le_rfl h1] at hb
    | retry => exact Attempts.settling (fun hs h1 => ih hP hs h1) hs hp
    | timeout => exact Timed.settling (fun hs h1 => ih hP hs h1) hs hp
    | encrypted L =>
      obtain ⟨nonce, h1⟩ := hp
      exact ih ⟨data, read_frame h nonce data, hP⟩ hs h1

/-- A replace that every layer hands on settles the stack when it succeeds. -/
theorem replace_reads (hf : ∀ l ∈ ls, l.Forwards) (hP : P data)
    (hr : replace ls h data s true s') : Reads ls h P s' := by
  induction ls generalizing P data with
  | nil =>
    rcases hr with rfl | ⟨hok, -⟩
    · exact .written hP
    · cases hok
  | cons l ls ih =>
    rw [List.forall_mem_cons] at hf
    cases l with
    | swappable | cached | retry => exact absurd hf.1 id
    | timeout =>
      rcases hr with h1 | ⟨hok, -⟩
      · exact ih hf.2 hP h1
      · cases hok
    | encrypted L =>
      obtain ⟨nonce, h1⟩ := hr
      exact ih hf.2 ⟨data, read_frame h nonce data, hP⟩ h1

theorem replace_settling (hP : P data) (hfree : Free h s)
    (hr : replace ls h data s ok s') : Settling ls h P s' ∧ (ok = true → Reads ls h P s') := by
  induction ls generalizing P data s ok s' with
  | nil =>
    rcases hr with rfl | ⟨rfl, rfl⟩
    · exact ⟨.inr (.written hP), fun _ => .written hP⟩
    · exact ⟨.inl hfree, fun hok => by cases hok⟩
  | cons l ls ih =>
    cases l with
    | swappable | cached | retry =>
      exact put_settling hP (.inl hfree) hr
    | timeout =>
      rcases hr with h1 | ⟨rfl, rfl | ⟨ok', h1⟩⟩
      · exact ih hP hfree h1
      · exact ⟨.inl hfree, fun hok => by cases hok⟩
      · exact ⟨(ih hP hfree h1).1, fun hok => by cases hok⟩
    | encrypted L =>
      obtain ⟨nonce, h1⟩ := hr
      exact ih ⟨data, read_frame h nonce data, hP⟩ hfree h1

end Reads

/-- An object `[1]` under every hash, and no cache files. -/
def oneEverywhere : StackState ℕ := ⟨fun _ => some [1], fun _ => 0, fun _ => ⟨fun _ => none, fun _ => none⟩⟩

end OxiCloud.BackendStack
