import OxiCloud.Counters
import OxiCloud.Lib.Pools

/-! # Reference tokens

Between the statement that takes a reference and the one that hands it to a row or gives it back, a
reference is held by a running program. `Token` makes these claims explicit and `ledger` says how the
statements move them:

* `file h` is one reference on the content `h`, counted at the manifest (or at the blob row of legacy
  content);
* `release h cs` is such a reference whose holder is about to give it back and has read the chunk list
  `cs`;
* `chunk c` is one reference on the chunk `c`, counted at the blob row;
* `slot` is not a reference: one is held for each derived row, to bound the nesting of purges. -/

namespace OxiCloud.Tokens

open Lib.Tables Lib.Programs Lib.Pools Schema OxiCloud.Machine Multiset

variable {H : Type}

/-- What a running program may hold. -/
inductive Token (H : Type) where
  | file (h : H)
  | release (h : H) (chunkHashes : List H)
  | chunk (c : H)
  | slot
  deriving DecidableEq

variable [DecidableEq H]

/-- The token is a reference on the content `h`. -/
def Token.names (h : H) : Token H → Bool
  | .file h' => h' = h
  | .release h' _ => h' = h
  | _ => false

/-- The references on the content `h` among the tokens `a`. -/
def fileTokens (a : Multiset (Token H)) (h : H) : ℕ := a.countP fun t => t.names h = true

/-- The references on the chunk `c` among the tokens `a`. -/
def chunkTokens (a : Multiset (Token H)) (c : H) : ℕ := a.count (.chunk c)

/-- The slots among the tokens `a`. -/
def slots (a : Multiset (Token H)) : ℕ := a.count .slot

/-- One chunk token for each distinct hash. -/
def chunksOf (hs : List H) : Multiset (Token H) := (hs.dedup : Multiset H).map .chunk

/-- One chunk token for each distinct hash of each list. -/
def chunksOfAll (batch : List (List H)) : Multiset (Token H) := (batch.map chunksOf).sum

/-- One reference for each listed content. -/
def filesOf (hs : List H) : Multiset (Token H) := (hs : Multiset H).map .file

/-- The tokens a statement takes. A failed release has lost track of its reference. -/
def loss : (op : Op H) → op.Resp → Multiset (Token H)
  | .releaseChunks hs, some _ => chunksOf hs
  | .releaseBatch batch, some _ => chunksOfAll batch
  | .insertManifest _ m, some true => chunksOf m.chunkHashes
  | .selectManifest h, _ => {.file h}
  | .removeManifest h cs, _ => {.release h cs}
  | .removeLegacy h, _ => {.chunk h}
  | .insertFile _ _ h, some (.inserted _) => {.file h}
  | .swapBlobHash _ h _, some (some (_, true)) => {.file h}
  | .insertDerived _ h, some true => {.file h}
  | .upsertAttached _ h _, some _ => {.file h}
  | .insertAttached _ h, some true => {.file h}
  | .rechunk _ cs _, some (some _) => chunksOf cs
  | _, _ => 0

/-- The slots a statement takes: one for each derived row it deletes. -/
def spent : (op : Op H) → op.Resp → ℕ
  | .deleteDerived _, some rows => rows.length
  | _, _ => 0

/-- The tokens a statement gives. The rows a purge deleted are references to be released, unless a
negative row among them made it give up. -/
def gain : (op : Op H) → Store H → op.Resp → Multiset (Token H)
  | .pinExisting _, _, some pinned => chunksOf pinned
  | .pinClaimable _, _, some pinned => chunksOf pinned
  | .registerChunks rows, _, some _ => chunksOf (rows.map Prod.fst)
  | .insertManifest h m, _, some true => replicate m.refCount (.file h)
  | .bumpManifest h, _, some (some _) => {.file h}
  | .bumpBlob h, _, some true => {.file h}
  | .selectManifest h, _, some (some m) => {.release h m.chunkHashes}
  | .selectManifest h, _, some none => {.chunk h}
  | .swapBlobHash .., _, some (some (old, true)) => {.file old}
  | .upsertAttached k _ _, s, some _ => (s.fileAttachedBlobs.get k).elim 0 fun old => {.file old}
  | .deleteDerived _, _, some rows =>
    if none ∈ rows then 0 else filesOf rows.reduceOption
  | .insertDerived .., _, some true => {.slot}
  | .reapManifests, _, some batch => chunksOfAll (Store.reapedChunks batch)
  | _, _, _ => 0

/-- The tokens that lose their object: a garbage collector's own claims on a manifest it reaps. -/
def void : (op : Op H) → op.Resp → Token H → Bool
  | .reapManifests, some batch, t => batch.any fun x => t.names x.1
  | _, _, _ => false

/-- **The ledger of references.** -/
def ledger (H : Type) [DecidableEq H] : Ledger (sql H) (Store H) (Token H) where
  next op s r c :=
    c.filter (fun t => void op r t = false) - replicate (spent op r) .slot - loss op r + gain op s r

variable {op : Op H} {a c : Multiset (Token H)}

variable {s : Store H} {r : op.Resp}

theorem next_eq (hv : ∀ t, void op r t = false) (hs : spent op r = 0) :
    (ledger H).next op s r c = c - loss op r + gain op s r := by
  have hc : c.filter (fun t => void op r t = false) = c := filter_eq_self.mpr fun t _ => hv t
  show c.filter (fun t => void op r t = false) - replicate (spent op r) .slot - loss op r +
    gain op s r = _
  rw [hc, hs, replicate_zero, Multiset.sub_zero]

section Answers
variable {s : Store H} {r : op.Resp} {t u : Token H}

theorem untouched (hl : loss op r = 0) (hg : gain op s r = 0) : c - loss op r + gain op s r = c := by
  rw [hl, hg, Multiset.sub_zero, add_zero]

theorem used (hl : loss op r = {t}) (hg : gain op s r = 0) : t ::ₘ c - loss op r + gain op s r = c := by
  rw [hl, hg, sub_singleton, erase_cons_head, add_zero]

theorem turned (hl : loss op r = {t}) (hg : gain op s r = {u}) :
    t ::ₘ c - loss op r + gain op s r = u ::ₘ c := by
  rw [hl, hg, sub_singleton, erase_cons_head, add_comm, singleton_add]

end Answers

theorem next_quiet (hq : op.Quiet) : (ledger H).next op s r c = c := by
  cases op <;> simp only [Op.Quiet] at hq
  all_goals
    rw [next_eq (fun _ => rfl) rfl]
    simp [loss, gain]

/-! ### Counting tokens -/

@[simp] theorem fileTokens_zero (h : H) : fileTokens 0 h = 0 := rfl
@[simp] theorem chunkTokens_zero (c : H) : chunkTokens 0 c = 0 := rfl
@[simp] theorem slots_zero : slots (0 : Multiset (Token H)) = 0 := rfl

@[simp] theorem fileTokens_add (a b : Multiset (Token H)) (h : H) :
    fileTokens (a + b) h = fileTokens a h + fileTokens b h := countP_add ..

@[simp] theorem chunkTokens_add (a b : Multiset (Token H)) (c : H) :
    chunkTokens (a + b) c = chunkTokens a c + chunkTokens b c := count_add ..

@[simp] theorem slots_add (a b : Multiset (Token H)) : slots (a + b) = slots a + slots b :=
  count_add ..

variable (t : Token H)

@[simp] theorem fileTokens_singleton (h : H) : fileTokens {t} h = if t.names h then 1 else 0 := by
  rw [fileTokens, ← cons_zero, countP_cons, countP_zero, Nat.zero_add]

@[simp] theorem chunkTokens_singleton (c : H) :
    chunkTokens {t} c = if t = .chunk c then 1 else 0 := by
  simp [chunkTokens, count_singleton, eq_comm]

@[simp] theorem slots_singleton : slots {t} = if t = .slot then 1 else 0 := by
  simp [slots, count_singleton, eq_comm]

@[simp] theorem fileTokens_chunksOf (hs : List H) (h : H) : fileTokens (chunksOf hs) h = 0 := by
  rw [fileTokens, chunksOf, countP_map, card_eq_zero, filter_eq_nil]
  simp [Token.names]

@[simp] theorem slots_chunksOf (hs : List H) : slots (chunksOf hs) = 0 := by
  simp [slots, chunksOf]

@[simp] theorem chunkTokens_chunksOf (hs : List H) (c : H) :
    chunkTokens (chunksOf hs) c = if c ∈ hs then 1 else 0 := by
  rw [chunkTokens, chunksOf, count_map_eq_count' _ _ (fun _ _ h => by injection h), coe_count]
  by_cases hc : c ∈ hs
  · rw [if_pos hc, List.count_eq_one_of_mem (List.nodup_dedup hs) (List.mem_dedup.mpr hc)]
  · rw [if_neg hc, List.count_eq_zero_of_not_mem (fun h => hc (List.mem_dedup.mp h))]

theorem chunksOf_congr {l l' : List H} (h : ∀ x, x ∈ l ↔ x ∈ l') : chunksOf l = chunksOf l' := by
  have hp : l.dedup.Perm l'.dedup := by
    rw [List.perm_ext_iff_of_nodup (List.nodup_dedup l) (List.nodup_dedup l')]
    simpa using h
  rw [chunksOf, chunksOf, coe_eq_coe.mpr hp]

theorem chunksOf_append {l l' : List H} (h : l.Disjoint l') :
    chunksOf (l ++ l') = chunksOf l + chunksOf l' := by
  have hp : (l ++ l').dedup.Perm (l.dedup ++ l'.dedup) := by
    have hn : (l.dedup ++ l'.dedup).Nodup := by
      rw [List.nodup_append]
      refine ⟨List.nodup_dedup l, List.nodup_dedup l', fun x hx y hy hxy => ?_⟩
      subst hxy
      exact h (List.mem_dedup.mp hx) (List.mem_dedup.mp hy)
    rw [List.perm_ext_iff_of_nodup (List.nodup_dedup _) hn]
    simp
  rw [chunksOf, coe_eq_coe.mpr hp, ← coe_add, map_add]
  rfl

@[simp] theorem chunksOf_nil : chunksOf ([] : List H) = 0 := rfl

variable (batch : List (List H))

@[simp] theorem fileTokens_chunksOfAll (h : H) : fileTokens (chunksOfAll batch) h = 0 := by
  induction batch with
  | nil => rfl
  | cons hs batch ih => simpa [chunksOfAll] using ih

@[simp] theorem slots_chunksOfAll : slots (chunksOfAll batch) = 0 := by
  induction batch with
  | nil => rfl
  | cons hs batch ih => simpa [chunksOfAll] using ih

@[simp] theorem chunkTokens_chunksOfAll (c : H) :
    chunkTokens (chunksOfAll batch) c = batch.countP fun hs => c ∈ hs := by
  induction batch with
  | nil => rfl
  | cons hs batch ih =>
    have hc : chunksOfAll (hs :: batch) = chunksOf hs + chunksOfAll batch := by simp [chunksOfAll]
    rw [hc, chunkTokens_add, ih, chunkTokens_chunksOf, List.countP_cons]
    simp only [decide_eq_true_eq]
    omega

@[simp] theorem fileTokens_replicate_file (n : ℕ) (h h' : H) :
    fileTokens (replicate n (.file h)) h' = if h = h' then n else 0 := by
  induction n with
  | zero => simp
  | succ n ih =>
    rw [replicate_succ, ← singleton_add, fileTokens_add, ih]
    by_cases hh : h = h' <;> simp [hh, Token.names]; omega

@[simp] theorem chunkTokens_replicate_file (n : ℕ) (h c : H) :
    chunkTokens (replicate n (.file h)) c = 0 := by
  simp [chunkTokens, count_replicate]

omit [DecidableEq H] in
theorem filesOf_cons (h : H) (hs : List H) : filesOf (h :: hs) = .file h ::ₘ filesOf hs := rfl

@[simp] theorem fileTokens_filesOf (hs : List H) (h : H) : fileTokens (filesOf hs) h = hs.count h := by
  induction hs with
  | nil => rfl
  | cons x hs ih =>
    have hx : filesOf (x :: hs) = {.file x} + filesOf hs := by simp [filesOf]
    rw [hx, fileTokens_add, ih, fileTokens_singleton, List.count_cons]
    simp only [Token.names, decide_eq_true_eq, beq_iff_eq]
    omega

@[simp] theorem chunkTokens_filesOf (hs : List H) (c : H) : chunkTokens (filesOf hs) c = 0 := by
  simp [chunkTokens, filesOf]

@[simp] theorem slots_filesOf (hs : List H) : slots (filesOf hs) = 0 := by
  simp [slots, filesOf]

variable {b : Multiset (Token H)}

theorem fileTokens_mono (h : a ≤ b) (x : H) : fileTokens a x ≤ fileTokens b x := countP_le_of_le _ h

theorem chunkTokens_mono (h : a ≤ b) (x : H) :
    chunkTokens a x ≤ chunkTokens b x := count_le_of_le _ h

theorem slots_mono (h : a ≤ b) : slots a ≤ slots b := count_le_of_le _ h

/-- The tokens on `h` after `l` is given up for `g`. -/
theorem fileTokens_next {l : Multiset (Token H)} (hl : l ≤ c) (g rest : Multiset (Token H)) (h : H) :
    fileTokens (c - l + g + rest) h + fileTokens l h = fileTokens (c + rest) h + fileTokens g h := by
  have h1 := fileTokens_mono hl h
  have h2 : fileTokens (c - l) h = fileTokens c h - fileTokens l h := countP_sub hl ..
  simp only [fileTokens_add, h2]
  omega

theorem chunkTokens_next {l : Multiset (Token H)} (hl : l ≤ c) (g rest : Multiset (Token H))
    (h : H) :
    chunkTokens (c - l + g + rest) h + chunkTokens l h = chunkTokens (c + rest) h + chunkTokens g h := by
  have h1 := chunkTokens_mono hl h
  have h2 : chunkTokens (c - l) h = chunkTokens c h - chunkTokens l h := count_sub ..
  simp only [chunkTokens_add, h2]
  omega

theorem fileTokens_spend (c : Multiset (Token H)) (n : ℕ) (h : H) :
    fileTokens (c - replicate n .slot) h = fileTokens c h := by
  have hz : (replicate n (.slot : Token H)).filter (fun t => t.names h = true) = 0 := by
    rw [filter_eq_nil]
    intro t ht
    rw [eq_of_mem_replicate ht]
    simp [Token.names]
  simp only [fileTokens, countP_eq_card_filter, filter_sub, hz, Multiset.sub_zero]

theorem chunkTokens_spend (c : Multiset (Token H)) (n : ℕ) (x : H) :
    chunkTokens (c - replicate n .slot) x = chunkTokens c x := by
  simp [chunkTokens, count_sub, count_replicate]

/-! ### Slots -/

theorem slots_loss (op : Op H) (r : op.Resp) : slots (loss op r) = 0 := by
  unfold loss
  split <;> simp

theorem void_slot (op : Op H) (r : op.Resp) : void op r .slot = false := by
  unfold void
  split
  · simp [Token.names]
  · rfl

theorem slots_ledger (op : Op H) (s : Store H) (r : op.Resp) (c : Multiset (Token H)) :
    slots ((ledger H).next op s r c) = slots c - spent op r + slots (gain op s r) := by
  have h1 : slots (c.filter fun t => void op r t = false) = slots c :=
    count_filter_of_pos (void_slot op r)
  have h2 := slots_loss op r
  show slots (c.filter (fun t => void op r t = false) - replicate (spent op r) .slot - loss op r +
    gain op s r) = _
  rw [slots_add]
  simp only [slots, count_sub] at h1 h2 ⊢
  rw [h1, h2, count_replicate_self, Nat.sub_zero]

theorem mem_ledger {t : Token H} (h : t ∈ (ledger H).next op s r c) : t ∈ c ∨ t ∈ gain op s r := by
  rcases mem_add.mp h with h | h
  · exact .inl (mem_of_mem_filter (mem_of_le (Multiset.sub_le_self _ _)
      (mem_of_le (Multiset.sub_le_self _ _) h)))
  · exact .inr h

theorem one_le_fileTokens {t : Token H} {h : H} (ht : t ∈ a)
    (hn : t.names h = true) : 1 ≤ fileTokens a h :=
  countP_pos.mpr ⟨t, ht, hn⟩

theorem fileTokens_pos (rest : Multiset (Token H)) {t : Token H} {h : H} (hl : {t} ≤ c) (hn : t.names h = true) :
    1 ≤ fileTokens (c + rest) h :=
  one_le_fileTokens (mem_add.mpr (.inl (singleton_le.mp hl))) hn

/-- Only the read that prepares a release gives a `release` token. -/
theorem release_notMem_gain (hop : ∀ h, op ≠ .selectManifest h) (s : Store H)
    (r : op.Resp) (h : H) (cs : List H) : .release h cs ∉ gain op s r := by
  intro ht
  have hpos := one_le_fileTokens ht (h := h) (by simp [Token.names])
  unfold gain at ht hpos
  split at ht
  any_goals simp at hpos
  any_goals simp [mem_replicate] at ht
  · exact absurd rfl (hop _)
  · generalize s.fileAttachedBlobs.get _ = old at ht
    cases old <;> simp at ht
  · split_ifs at ht <;> simp [filesOf] at ht

end OxiCloud.Tokens
