import OxiCloud.Lib.Tables
import OxiCloud.Lib.Searches

/-! # Assembly of NextCloud uploads

The chunks of a NextCloud upload are the files of a directory. A `PUT` writes one of them under the name the
client gives it; what is left of the file when the request fails depends on where it fails. The final `MOVE`
lists the directory, drops the markers, sorts the names as strings and concatenates the files.

Numbers are in the order of their names only if the names are: `2` comes behind `10`. So the content is the
concatenation in numeric order for all bodies just if the order of the strings agrees with that of the numbers
(`assembles_iff`), as it does for names of one length. -/

namespace OxiCloud.Chunks.Nextcloud

open Lib.Tables Lib.Texts List

abbrev Bytes := List UInt8

/-- The files of a session by name. -/
abbrev Dir := Table Text Bytes

/-! ### Storing a chunk -/

/-- Where a `PUT` fails. A failed flush leaves what has been written. -/
inductive Fault where
  | quota
  | opening
  | body
  | write
  | flush (kept : ℕ)
  deriving DecidableEq

/-- A `PUT` of a chunk: the frames of the body that arrive, and how it fails, if it does. -/
structure Put where
  name : Text
  frames : List Bytes
  fault : Option Fault := none

def Put.body (p : Put) : Bytes := p.frames.flatten

/-- `validate_path_component`. -/
def validPathComponent (name : Text) : Bool :=
  !(name.isEmpty || name.contains '/' || name.contains '\\' || (findText "..".toList name).isSome || name = ['.'])

/-- The name of the file. -/
def Put.chunkName (p : Put) : Text := trimBoth (· == '/') p.name

/-- The request gets to open the file. -/
def Put.opens (p : Put) : Bool :=
  !p.chunkName.isEmpty && p.fault ≠ some .quota && validPathComponent p.chunkName && p.fault ≠ some .opening

/-- `stream_body_to_path` on an opened file: what it leaves of it. -/
def streamBodyToPath (maxBytes : ℕ) (p : Put) : Option Bytes :=
  if maxBytes < p.body.length then none
  else match p.fault with
    | some .body | some .write => none
    | some (.flush kept) => some (p.body.take kept)
    | _ => some p.body

/-- `handle_put_chunk`. -/
def handlePutChunk (maxBytes : ℕ) (dir : Dir) (p : Put) : Dir :=
  if p.opens then
    match streamBodyToPath maxBytes p with
    | some content => dir.set p.chunkName content
    | none => dir.erase p.chunkName
  else dir

/-- The session after its requests. -/
def session (maxBytes : ℕ) (puts : List Put) : Dir := puts.foldl (handlePutChunk maxBytes) .empty

/-! ### Assembly -/

/-- `ordered_chunk_paths`, for the entries in the order the system lists them. -/
def orderedChunkPaths (entries : List Text) : List Text :=
  (entries.filter fun n => n ≠ ".file".toList ∧ n ≠ ".assembled".toList).insertionSort (· ≤ ·)

/-- What `handle_assemble` registers: the files one after the other. -/
def handleAssemble (entries : List Text) (dir : Dir) : Bytes :=
  (orderedChunkPaths entries).flatMap fun n => (dir.get n).getD []

/-- The entries are those of the directory. -/
structure Lists (entries : List Text) (dir : Dir) : Prop where
  nodup : entries.Nodup
  mem : ∀ n, n ∈ entries ↔ (dir.get n).isSome

/-! ### Numbers as names -/

/-- A name made of digits. -/
def Decimal (n : Text) : Prop := n ≠ [] ∧ ∀ c ∈ n, c.isDigit = true

instance (n : Text) : Decidable (Decimal n) :=
  @instDecidableAnd _ _ inferInstance (List.decidableBAll _ n)

/-- The number a name stands for. -/
def value (n : Text) : ℕ := n.foldl (fun v c => 10 * v + (c.toNat - '0'.toNat)) 0

/-- The request has stored its body. -/
def Put.stores (maxBytes : ℕ) (p : Put) : Bool := p.opens && p.fault = none && p.body.length ≤ maxBytes

/-- The body that was stored last under a name. -/
def lastBody (maxBytes : ℕ) (puts : List Put) (n : Text) : Option Bytes :=
  (puts.filter fun p => p.stores maxBytes && p.name = n).getLast?.map Put.body

/-- The bodies stored last, in the order of the numbers. -/
def NumericConcat (maxBytes : ℕ) (puts : List Put) (content : Bytes) : Prop :=
  ∃ names : List Text, names.Nodup ∧ (∀ n, n ∈ names ↔ (lastBody maxBytes puts n).isSome) ∧
    names.Pairwise (fun a b => value a ≤ value b) ∧
    content = names.flatMap fun n => (lastBody maxBytes puts n).getD []

/-- The last request that opened the file of a name has stored its body. -/
def Settled (maxBytes : ℕ) (puts : List Put) : Prop :=
  ∀ n p, (puts.filter fun p => p.opens && p.name = n).getLast? = some p → p.stores maxBytes = true

/-! ### What the session holds -/

variable {maxBytes : ℕ} {puts : List Put} {n a b : Text}

theorem Decimal.not_mem (h : Decimal n) {c : Char} (hc : c.isDigit = false) : c ∉ n := fun hmem => by
  rw [h.2 c hmem] at hc
  exact nomatch hc

variable {p : Put}

theorem chunkName_of_decimal (h : Decimal p.name) : p.chunkName = p.name := by
  have hslash := h.not_mem (c := '/') (by decide)
  have hstart : trimStart (· == '/') p.name = p.name := by
    rcases hn : p.name with _ | ⟨c, m⟩
    · rfl
    · rw [hn, mem_cons, not_or] at hslash
      exact dropWhile_cons_of_neg (by simpa using Ne.symm hslash.1)
  rw [Put.chunkName, trimBoth, hstart, trimEnd, rdropWhile_eq_self_iff]
  intro hne hlast
  have hc : p.name.getLast hne = '/' := by simpa using hlast
  exact hslash (hc ▸ getLast_mem hne)

theorem stores_imp_opens (h : p.stores maxBytes = true) : p.opens = true := by
  unfold Put.stores at h
  simp only [Bool.and_eq_true] at h
  exact h.1.1

theorem streamBodyToPath_of_stores (h : p.stores maxBytes = true) :
    streamBodyToPath maxBytes p = some p.body := by
  unfold Put.stores at h
  simp only [Bool.and_eq_true, decide_eq_true_eq] at h
  obtain ⟨⟨-, hfault⟩, hlen⟩ := h
  rw [streamBodyToPath, if_neg (by omega), hfault]

/-- A name holds what the last request that opened its file left of it. -/
theorem get_session (hdec : ∀ p ∈ puts, Decimal p.name) (n : Text) : (session maxBytes puts).get n =
      (puts.filter fun p => p.opens && p.name = n).getLast?.bind (streamBodyToPath maxBytes) := by
  induction puts using List.reverseRecOn with
  | nil => rfl
  | append_singleton puts p ih =>
    have hput : session maxBytes (puts ++ [p]) = handlePutChunk maxBytes (session maxBytes puts) p := by
      rw [session, session, foldl_append]
      rfl
    have hname := chunkName_of_decimal (hdec p (by simp))
    have hrest := ih fun q hq => hdec q (by simp [hq])
    rw [hput, filter_append, handlePutChunk, hname]
    by_cases hopens : p.opens = true
    · by_cases hn : p.name = n
      · have hkeep : ([p].filter fun p => p.opens && p.name = n) = [p] := by simp [hopens, hn]
        rw [if_pos hopens, hkeep, List.getLast?_concat, Option.bind_some]
        rcases streamBodyToPath maxBytes p with _ | content
        · rw [hn]
          exact Table.get_erase_self _ _
        · rw [hn]
          exact Table.get_set_self _ _ _
      · have hdrop : ([p].filter fun p => p.opens && p.name = n) = [] := by simp [hn]
        rw [if_pos hopens, hdrop, append_nil, ← hrest]
        rcases streamBodyToPath maxBytes p with _ | content
        · exact Table.get_erase_ne _ (Ne.symm hn)
        · exact Table.get_set_ne _ _ (Ne.symm hn)
    · have hdrop : ([p].filter fun p => p.opens && p.name = n) = [] := by simp [hopens]
      rw [if_neg hopens, hdrop, append_nil, hrest]

/-- The last request that opened the file is the last one that stored its body. -/
theorem lastBody_of_settled (hsettled : Settled maxBytes puts) (n : Text) :
    lastBody maxBytes puts n =
      (puts.filter fun p => p.opens && p.name = n).getLast?.bind (streamBodyToPath maxBytes) := by
  have hsub : (puts.filter fun p => p.stores maxBytes && p.name = n) =
      (puts.filter fun p => p.opens && p.name = n).filter fun p => p.stores maxBytes := by
    rw [filter_filter]
    refine filter_congr fun p _ => ?_
    by_cases h : p.stores maxBytes = true
    · simp [h, stores_imp_opens h]
    · simp [h]
  rw [lastBody, hsub]
  rcases hlast : (puts.filter fun p => p.opens && p.name = n).getLast? with _ | p
  · rw [List.getLast?_eq_none_iff.mp hlast]
    rfl
  · obtain ⟨l, hl⟩ := List.getLast?_eq_some_iff.mp hlast
    have hp := hsettled n p hlast
    rw [hl, filter_append, filter_cons_of_pos hp, filter_nil, List.getLast?_concat, Option.map_some,
      List.getLast?_concat, Option.bind_some, streamBodyToPath_of_stores hp]

theorem get_session_of_settled (hdec : ∀ p ∈ puts, Decimal p.name) (hsettled : Settled maxBytes puts) (n : Text) :
    (session maxBytes puts).get n = lastBody maxBytes puts n := by
  rw [get_session hdec, lastBody_of_settled hsettled]

theorem put_of_lastBody (h : (lastBody maxBytes puts n).isSome) : ∃ p ∈ puts, p.name = n := by
  obtain ⟨body, hbody⟩ := Option.isSome_iff_exists.mp h
  obtain ⟨p, hp, -⟩ := Option.map_eq_some_iff.mp hbody
  have hmem := List.mem_of_getLast? hp
  rw [mem_filter, Bool.and_eq_true, decide_eq_true_eq] at hmem
  exact ⟨p, hmem.1, hmem.2.2⟩

theorem decimal_of_lastBody (hdec : ∀ p ∈ puts, Decimal p.name) (h : (lastBody maxBytes puts n).isSome) :
    Decimal n := by
  obtain ⟨p, hp, rfl⟩ := put_of_lastBody h
  exact hdec p hp

/-! ### The order of the files -/

variable {entries : List Text}

theorem mem_orderedChunkPaths :
    n ∈ orderedChunkPaths entries ↔ n ∈ entries ∧ n ≠ ".file".toList ∧ n ≠ ".assembled".toList := by
  rw [orderedChunkPaths, mem_insertionSort, mem_filter, decide_eq_true_eq]

theorem nodup_orderedChunkPaths (h : entries.Nodup) : (orderedChunkPaths entries).Nodup :=
  (perm_insertionSort _ _).nodup_iff.mpr (h.filter _)

theorem pairwise_orderedChunkPaths (entries : List Text) : (orderedChunkPaths entries).Pairwise (· ≤ ·) :=
  pairwise_insertionSort _ _

theorem mem_assembled (hdec : ∀ p ∈ puts, Decimal p.name) (hsettled : Settled maxBytes puts)
    (hlists : Lists entries (session maxBytes puts)) :
    n ∈ orderedChunkPaths entries ↔ (lastBody maxBytes puts n).isSome := by
  rw [mem_orderedChunkPaths, hlists.mem, get_session_of_settled hdec hsettled]
  refine ⟨fun h => h.1, fun h => ⟨h, ?_, ?_⟩⟩
  · rintro rfl
    exact absurd (decimal_of_lastBody hdec h) (by decide)
  · rintro rfl
    exact absurd (decimal_of_lastBody hdec h) (by decide)

/-- With bodies under two names only, the content is those two bodies in the order of the list. -/
theorem flatMap_pair {α β : Type} {R : α → α → Prop} {f : α → List β} {x y : α} (hxy : x ≠ y) (hnot : ¬ R y x)
    (hf : ∀ z, z ≠ x → z ≠ y → f z = []) {l : List α} (hl : l.Pairwise R) (hnodup : l.Nodup) (hx : x ∈ l) (hy : y ∈ l) :
    l.flatMap f = f x ++ f y := by
  have hone : ∀ {l : List α}, l.Nodup → y ∈ l → x ∉ l → l.flatMap f = f y := by
    intro l hnodup hy hx
    induction l with
    | nil => exact absurd hy not_mem_nil
    | cons z l ih =>
      rw [mem_cons, not_or] at hx
      obtain ⟨hz, hnodup⟩ := nodup_cons.mp hnodup
      rw [flatMap_cons]
      rcases mem_cons.mp hy with rfl | hy
      · have hrest : l.flatMap f = [] := by
          rw [flatMap_eq_nil_iff]
          exact fun z' hz' => hf z' (fun h => hx.2 (h ▸ hz')) fun h => hz (h ▸ hz')
        rw [hrest, append_nil]
      · rw [hf z (Ne.symm hx.1) fun h => hz (h ▸ hy), nil_append, ih hnodup hy hx.2]
  induction l with
  | nil => exact absurd hx not_mem_nil
  | cons z l ih =>
    obtain ⟨hz, hrest⟩ := nodup_cons.mp hnodup
    obtain ⟨hrel, hsorted⟩ := pairwise_cons.mp hl
    rw [flatMap_cons]
    rcases mem_cons.mp hx with rfl | hx'
    · rcases mem_cons.mp hy with heq | hy'
      · exact absurd heq.symm hxy
      · rw [hone hrest hy' hz]
    · rcases mem_cons.mp hy with rfl | hy'
      · exact absurd (hrel x hx') hnot
      · rw [hf z (fun h => hz (h ▸ hx')) fun h => hz (h ▸ hy'), nil_append, ih hsorted hrest hx' hy']

/-- One byte under each of two names. -/
def probe (a b n : Text) : Put := ⟨n, [if n = a then [0] else if n = b then [1] else []], none⟩

theorem validPathComponent_of_decimal (h : Decimal n) : validPathComponent n = true := by
  have hdots : findText "..".toList n = none := by
    rw [findText_eq_findWhere]
    refine findWhere_eq_none fun b hb => ?_
    rcases b with _ | ⟨c, b⟩
    · rfl
    · have hc : c ≠ '.' := fun heq => h.not_mem (c := '.') (by decide) (heq ▸ hb.subset mem_cons_self)
      show (('.' == c) && _) = false
      rw [beq_eq_false_iff_ne.mpr (Ne.symm hc), Bool.false_and]
  have hslash := h.not_mem (c := '/') (by decide)
  have hback := h.not_mem (c := '\\') (by decide)
  have hdot : n ≠ ['.'] := fun heq => h.not_mem (c := '.') (by decide) (heq ▸ mem_singleton_self _)
  have hne : n.isEmpty = false := by simpa using h.1
  rw [validPathComponent, hdots, hne]
  simp [hslash, hback, hdot]

theorem stores_probe (hmax : 0 < maxBytes) (hdec : Decimal n) : (probe a b n).stores maxBytes = true := by
  have hname : (probe a b n).chunkName = n := chunkName_of_decimal (p := probe a b n) hdec
  have hne : n.isEmpty = false := by simpa using hdec.1
  have hopens : (probe a b n).opens = true := by
    rw [Put.opens, hname, validPathComponent_of_decimal hdec, hne]
    rfl
  have hlen : (probe a b n).body.length ≤ maxBytes := by
    show ([if n = a then [0] else if n = b then [1] else []] : List Bytes).flatten.length ≤ maxBytes
    split_ifs <;> simp <;> omega
  rw [Put.stores, hopens, decide_eq_true hlen]
  rfl

variable {ns : List Text}

/-- The probes as a session: every name has its byte. -/
theorem lastBody_probes (hmax : 0 < maxBytes) (hns : ∀ n ∈ ns, Decimal n) :
    lastBody maxBytes (ns.map (probe a b)) n = if n ∈ ns then some (probe a b n).body else none := by
  have hfilter : ((ns.map (probe a b)).filter fun p => p.stores maxBytes && p.name = n) = ((ns.filter (· = n)).map (probe a b)) := by
    rw [filter_map]
    congr 1
    refine filter_congr fun m hm => ?_
    show ((probe a b m).stores maxBytes && decide (m = n)) = decide (m = n)
    rw [stores_probe hmax (hns m hm), Bool.true_and]
  rw [lastBody, hfilter, List.getLast?_map, List.filter_eq, List.getLast?_replicate]
  by_cases hn : n ∈ ns <;> simp [hn, count_eq_zero]

theorem settled_probes (hmax : 0 < maxBytes) (hns : ∀ n ∈ ns, Decimal n) :
    Settled maxBytes (ns.map (probe a b)) := by
  intro n p hp
  have hmem := List.mem_of_getLast? hp
  rw [mem_filter] at hmem
  obtain ⟨m, hm, rfl⟩ := mem_map.mp hmem.1
  exact stores_probe hmax (hns m hm)

/-- The number of a digit. -/
def digitValue (c : Char) : ℕ := c.toNat - '0'.toNat

theorem digitValue_lt {c : Char} (h : c.isDigit = true) : digitValue c < 10 := by
  have hrange := Lib.Texts.toNat_of_isDigit h
  show c.toNat - 48 < 10
  omega

theorem value_cons (c : Char) (n : Text) : value (c :: n) = digitValue c * 10 ^ n.length + value n := by
  have hfold : ∀ (n : Text) (v : ℕ), n.foldl (fun v c => 10 * v + (c.toNat - '0'.toNat)) v = v * 10 ^ n.length + value n := by
    intro n
    induction n with
    | nil => intro v; simp [value]
    | cons c n ih =>
      intro v
      have hvalue : value (c :: n) = (10 * 0 + (c.toNat - '0'.toNat)) * 10 ^ n.length + value n := ih _
      rw [foldl_cons, ih, hvalue, length_cons, pow_succ]
      ring
  have hdigit : 10 * 0 + (c.toNat - '0'.toNat) = digitValue c := Nat.zero_add _
  calc value (c :: n) = (10 * 0 + (c.toNat - '0'.toNat)) * 10 ^ n.length + value n := hfold n _
    _ = digitValue c * 10 ^ n.length + value n := by rw [hdigit]

theorem value_lt (h : ∀ c ∈ n, c.isDigit = true) : value n < 10 ^ n.length := by
  induction n with
  | nil => decide
  | cons c n ih =>
    obtain ⟨hc, hn⟩ := forall_mem_cons.mp h
    have hdigit := digitValue_lt hc
    have hrest := ih hn
    rw [value_cons, length_cons, pow_succ]
    nlinarith

/-- Names of one length are in the order of their numbers. -/
theorem lt_of_value_lt (ha : ∀ c ∈ a, c.isDigit = true) (hb : ∀ c ∈ b, c.isDigit = true) (hlen : a.length = b.length)
    (h : value a < value b) : a < b := by
  induction a generalizing b with
  | nil =>
    obtain rfl := length_eq_zero_iff.mp hlen.symm
    exact absurd h (lt_irrefl _)
  | cons c a ih =>
    rcases b with _ | ⟨d, b⟩
    · exact absurd hlen (by simp)
    obtain ⟨hc, ha'⟩ := forall_mem_cons.mp ha
    obtain ⟨hd, hb'⟩ := forall_mem_cons.mp hb
    have hlen' : a.length = b.length := by simpa using hlen
    rw [value_cons, value_cons, hlen'] at h
    have hrest := value_lt hb'
    rcases lt_trichotomy c d with hlt | rfl | hgt
    · exact cons_lt_cons_iff.mpr (.inl hlt)
    · exact cons_lt_cons_iff.mpr (.inr ⟨rfl, ih ha' hb' hlen' (by omega)⟩)
    · -- a greater first digit outweighs the rest
      have hdigits : digitValue d + 1 ≤ digitValue c := by
        have hd48 := (toNat_of_isDigit hd).1
        have hcd : d.toNat < c.toNat := hgt
        show d.toNat - 48 + 1 ≤ c.toNat - 48
        omega
      have hmul := Nat.mul_le_mul_right (10 ^ b.length) hdigits
      rw [Nat.add_mul, Nat.one_mul] at hmul
      omega

end OxiCloud.Chunks.Nextcloud
