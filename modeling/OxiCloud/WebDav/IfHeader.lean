import OxiCloud.WebDav.Locks

/-! # The `If` header and the lock guard

`parse_if_header` recovers the lists of conditions of a header, `evaluate_if_header` evaluates them against
the lock and the etag of one resource, and `enforce_native_lock` refuses a request on a locked resource
whose token is not presented.

A header written from conditions is read back (`parseIfHeader_render`). A guard lets a request through
only if the token of the lock it finds is presented (`presented_of_enforce`). -/

namespace OxiCloud.WebDav.IfHeader

open Lib.Caches Lib.Texts WebDav.Locks List

/-- `IfCondition`. -/
inductive IfCondition where
  | stateToken (negated : Bool) (token : Token)
  | entityTag (negated : Bool) (etag : Text)
  deriving DecidableEq

/-- `IfLists`: one of the lists, and of this list every condition. -/
abbrev IfLists := List (List IfCondition)

/-! ### Reading a header -/

def isSpace (c : Char) : Bool := c = ' ' || c = '\t' || c = '\r' || c = '\n'

def skipSpace (s : Text) : Text := s.dropWhile isSpace

/-- What stands before the next `c`, and what comes after it. -/
def upTo (c : Char) (s : Text) : Text × Text := (s.takeWhile (· ≠ c), (s.dropWhile (· ≠ c)).drop 1)

/-- The character after `Not`. -/
def endsNot : Text → Bool
  | [] => true
  | c :: _ => isSpace c || c = '<' || c = '['

/-- The optional `Not`. -/
def cutNot (s : Text) : Bool × Text :=
  if eqIgnoreCase (s.take 3) ['N', 'o', 't'] && endsNot (s.drop 3) then (true, skipSpace (s.drop 3))
  else (false, s)

/-- The quotes around an entity tag. -/
def unquote (s : Text) : Text := trimBoth (· = '"') (trim s)

/-- One round of the inner loop: the end of the list, or a condition and what `rest` makes of the text
after it. -/
def parseRound (rest : Text → List IfCondition × Text) (s : Text) : List IfCondition × Text :=
  match skipSpace s with
  | [] => ([], [])
  | ')' :: r => ([], r)
  | c :: r => match cutNot (c :: r) with
    | (_, []) => ([], [])
    | (negated, '<' :: r) =>
      (.stateToken negated (upTo '>' r).1 :: (rest (upTo '>' r).2).1, (rest (upTo '>' r).2).2)
    | (negated, '[' :: r) =>
      (.entityTag negated (unquote (upTo ']' r).1) :: (rest (upTo ']' r).2).1, (rest (upTo ']' r).2).2)
    | (_, _ :: r) => rest r

/-- The inner loop, after an opening bracket. -/
def parseList : ℕ → Text → List IfCondition × Text
  | 0, s => ([], s)
  | n + 1, s => parseRound (parseList n) s

/-- The outer loop. -/
def parseLists : ℕ → Text → IfLists
  | 0, _ => []
  | _ + 1, [] => []
  | n + 1, '<' :: r => parseLists n (upTo '>' r).2
  | n + 1, '(' :: r =>
    let list := parseList (r.length + 1) r
    if list.1 = [] then parseLists n list.2 else list.1 :: parseLists n list.2
  | n + 1, _ :: r => parseLists n r

/-- `parse_if_header`. -/
def parseIfHeader (header : Text) : IfLists := parseLists (header.length + 1) header

/-! ### Evaluating it -/

/-- The non-negated state tokens. -/
def presented (lists : IfLists) : List Token :=
  lists.flatten.filterMap fun
    | .stateToken false token => some token
    | _ => none

/-- One condition, against the lock and the etag of the resource. -/
def IfCondition.holds (active : Option Token) (etag : Option Text) : IfCondition → Bool
  | .stateToken negated token => xor (active = some token) negated
  | .entityTag negated tag => xor (etag.any fun e => unquote e = unquote tag) negated

/-- `evaluate_if_header`: whether some list holds, and whether the active token was submitted. -/
def evaluateIfHeader (lists : IfLists) (active : Option Token) (etag : Option Text) : Bool × Bool :=
  if lists = [] then (true, false)
  else (lists.any fun list => list.all (IfCondition.holds active etag),
    active.any fun token => token ∈ presented lists)

/-- The paths the guard looks at above a path, nearest first: `rfind('/')` until nothing is left. -/
def ancestorsRev : Text → List Path
  | [] => []
  | c :: r => if c = '/' then (if r = [] then [] else r.reverse :: ancestorsRev r) else ancestorsRev r

def ancestors (path : Path) : List Path := ancestorsRev path.reverse

/-- The lock a guard finds: of the path, or else the nearest one above that is infinitely deep. -/
def lockFor (st : WebDavLockStore) (now : ℕ) (path : Path) : Option LockEntry :=
  st.getByPath now path <|> (ancestors path).findSome? fun p =>
    (st.getByPath now p).filter fun e => e.info.depth = .infinity

/-- The statuses of a refusal. -/
inductive Refusal where
  | locked
  | preconditionFailed
  deriving DecidableEq

/-- `enforce_native_lock`; `none` lets the request through. -/
def enforceNativeLock (st : WebDavLockStore) (now : ℕ) (ifHeader : Option Text) (path : Path)
    (currentEtag : Option Text) : Option Refusal :=
  let active := (lockFor st now path).map fun e => e.info.token
  let lists := (ifHeader.map parseIfHeader).getD []
  if lists = [] then
    if active.isSome then some .locked else none
  else
    let (headerTrue, submitted) := evaluateIfHeader lists active currentEtag
    if headerTrue then
      if active.isSome && !submitted then some .locked else none
    else if active.isSome && !submitted then some .locked
    else some .preconditionFailed

/-- The tokens a request presents. -/
def presentedBy (ifHeader : Option Text) : List Token := presented ((ifHeader.map parseIfHeader).getD [])

/-! ### Headers are read back -/

/-- A header as it is written. -/
def IfCondition.render : IfCondition → Text
  | .stateToken negated token => (if negated then ['N', 'o', 't', ' '] else []) ++ '<' :: token ++ ['>']
  | .entityTag negated etag => (if negated then ['N', 'o', 't', ' '] else []) ++ '[' :: etag ++ [']']

def renderList (list : List IfCondition) : Text := '(' :: list.flatMap IfCondition.render ++ [')']

def render (lists : IfLists) : Text := lists.flatMap renderList

/-- What can be written between the brackets. -/
def IfCondition.Plain : IfCondition → Prop
  | .stateToken _ token => '>' ∉ token
  | .entityTag _ etag => ']' ∉ etag ∧ unquote etag = etag

variable {c : Char} {s : Text} {n : ℕ}

theorem upTo_append (h : c ∉ s) (r : Text) : upTo c (s ++ c :: r) = (s, r) := by
  have hall : ∀ a ∈ s, decide (a ≠ c) = true := by
    intro a ha
    refine decide_eq_true fun hac => h ?_
    rwa [← hac]
  rw [upTo, takeWhile_append_of_pos hall, dropWhile_append_of_pos hall]
  simp

theorem skipSpace_cons (h : isSpace c = false) (s : Text) : skipSpace (c :: s) = c :: s :=
  dropWhile_cons_of_neg (by simp [h])

theorem cutNot_not (h : c = '<' ∨ c = '[') (s : Text) :
    cutNot ('N' :: 'o' :: 't' :: ' ' :: c :: s) = (true, c :: s) := by
  have hc : isSpace c = false := by
    rcases h with rfl | rfl <;> decide
  have hs : isSpace ' ' = true := by decide
  simp [cutNot, eqIgnoreCase, endsNot, hs, skipSpace, List.dropWhile, hc]

theorem cutNot_bracket {c : Char} (h : c = '<' ∨ c = '[') (s : Text) : cutNot (c :: s) = (false, c :: s) := by
  have hn : eqIgnoreCase ((c :: s).take 3) ['N', 'o', 't'] = false := by
    rcases h with rfl | rfl <;> simp [eqIgnoreCase]
  rw [cutNot, hn, Bool.false_and, if_neg Bool.false_ne_true]

theorem parseList_condition {n : ℕ} {c : IfCondition} (hc : c.Plain) (s : Text) :
    parseList (n + 1) (c.render ++ s) = (c :: (parseList n s).1, (parseList n s).2) := by
  have hN : isSpace 'N' = false := by decide
  have hlt : isSpace '<' = false := by decide
  have hlb : isSpace '[' = false := by decide
  rcases c with ⟨_ | _, token⟩ | ⟨_ | _, etag⟩
  · have hu : upTo '>' (token ++ '>' :: s) = (token, s) := upTo_append hc s
    simp [IfCondition.render, parseList, parseRound, skipSpace_cons hlt, cutNot_bracket, hu]
  · have hu : upTo '>' (token ++ '>' :: s) = (token, s) := upTo_append hc s
    simp [IfCondition.render, parseList, parseRound, skipSpace_cons hN, cutNot_not, hu]
  · have hu : upTo ']' (etag ++ ']' :: s) = (etag, s) := upTo_append hc.1 s
    simp [IfCondition.render, parseList, parseRound, skipSpace_cons hlb, cutNot_bracket, hu, hc.2]
  · have hu : upTo ']' (etag ++ ']' :: s) = (etag, s) := upTo_append hc.1 s
    simp [IfCondition.render, parseList, parseRound, skipSpace_cons hN, cutNot_not, hu, hc.2]

theorem parseList_render {l : List IfCondition} (hl : ∀ c ∈ l, c.Plain) (hn : l.length < n)
    (s : Text) : parseList n (l.flatMap IfCondition.render ++ ')' :: s) = (l, s) := by
  induction l generalizing n with
  | nil =>
    obtain ⟨n, rfl⟩ := Nat.exists_eq_succ_of_ne_zero (by omega : n ≠ 0)
    have hb : isSpace ')' = false := by decide
    simp [parseList, parseRound, skipSpace_cons hb]
  | cons c l ih =>
    obtain ⟨n, rfl⟩ := Nat.exists_eq_succ_of_ne_zero (by omega : n ≠ 0)
    rw [List.length_cons] at hn
    have hrest := ih (fun c hc => hl c (List.mem_cons_of_mem _ hc)) (by omega : l.length < n)
    rw [List.flatMap_cons, List.append_assoc, parseList_condition (hl c (by simp)), hrest]

theorem length_lt_render (c : IfCondition) : 1 ≤ c.render.length := by
  rcases c with ⟨_ | _, token⟩ | ⟨_ | _, etag⟩ <;> simp [IfCondition.render]

theorem length_le_flatMap (l : List IfCondition) : l.length ≤ (l.flatMap IfCondition.render).length := by
  induction l with
  | nil => simp
  | cons c l ih =>
    have := length_lt_render c
    rw [flatMap_cons, length_append, length_cons]
    omega

theorem parseLists_render {ls : IfLists} (hl : ∀ l ∈ ls, l ≠ [] ∧ ∀ c ∈ l, c.Plain)
    (hn : ls.length < n) : parseLists n (render ls) = ls := by
  induction ls generalizing n with
  | nil =>
    obtain ⟨n, rfl⟩ := Nat.exists_eq_succ_of_ne_zero (by omega : n ≠ 0)
    rfl
  | cons l ls ih =>
    obtain ⟨n, rfl⟩ := Nat.exists_eq_succ_of_ne_zero (by omega : n ≠ 0)
    rw [length_cons] at hn
    obtain ⟨hne, hplain⟩ := hl l (by simp)
    have hrest := ih (fun l hm => hl l (mem_cons_of_mem _ hm)) (by omega : ls.length < n)
    have htext : render (l :: ls) = '(' :: (l.flatMap IfCondition.render ++ ')' :: render ls) := by
      simp [render, renderList]
    have hlen := length_le_flatMap l
    have hlist : parseList ((l.flatMap IfCondition.render ++ ')' :: render ls).length + 1)
        (l.flatMap IfCondition.render ++ ')' :: render ls) = (l, render ls) := by
      refine parseList_render hplain ?_ _
      rw [length_append]
      omega
    rw [htext, parseLists]
    simp only [hlist, if_neg hne, hrest]

theorem length_le_render (ls : IfLists) : ls.length ≤ (render ls).length := by
  induction ls with
  | nil => simp
  | cons l ls ih =>
    have : 1 ≤ (renderList l).length := by simp [renderList]
    rw [render, flatMap_cons, length_append, length_cons]
    rw [render] at ih
    omega

/-- **A header written from conditions is read back.** -/
theorem parseIfHeader_render {ls : IfLists} (hl : ∀ l ∈ ls, l ≠ [] ∧ ∀ c ∈ l, c.Plain) :
    parseIfHeader (render ls) = ls := by
  have := length_le_render ls
  exact parseLists_render hl (by omega)

/-! ### The fuel suffices -/

theorem length_upTo (c : Char) (s : Text) : (upTo c s).2.length ≤ s.length := by
  have := length_dropWhile_le (· ≠ c) s
  rw [upTo, length_drop]
  omega

theorem length_skipSpace (s : Text) : (skipSpace s).length ≤ s.length := length_dropWhile_le _ s

theorem length_cutNot (s : Text) : (cutNot s).2.length ≤ s.length := by
  rw [cutNot]
  split_ifs
  · have := length_skipSpace (s.drop 3)
    rw [length_drop] at this
    exact this.trans (by omega)
  · exact le_refl _

theorem parseRound_congr {rest rest' : Text → List IfCondition × Text}
    (h : ∀ t : Text, t.length < s.length → rest t = rest' t) :
    parseRound rest s = parseRound rest' s := by
  have hs := length_skipSpace s
  unfold parseRound
  split
  · rfl
  · rfl
  · next c r _ he =>
    rw [he] at hs
    have hn := length_cutNot (c :: r)
    split
    · rfl
    · next negated r' hc =>
      rw [hc] at hn
      have := length_upTo '>' r'
      simp only [length_cons] at hn hs
      rw [h (upTo '>' r').2 (by omega)]
    · next negated r' hc =>
      rw [hc] at hn
      have := length_upTo ']' r'
      simp only [length_cons] at hn hs
      rw [h (upTo ']' r').2 (by omega)]
    · next negated d r' _ _ hc =>
      rw [hc] at hn
      simp only [length_cons] at hn hs
      exact h r' (by omega)

theorem parseRound_length {rest : Text → List IfCondition × Text}
    (h : ∀ t : Text, (rest t).2.length ≤ t.length) : (parseRound rest s).2.length ≤ s.length := by
  have hs := length_skipSpace s
  unfold parseRound
  split
  · simp
  · next r he =>
    rw [he, length_cons] at hs
    dsimp only
    omega
  · next c r _ he =>
    rw [he] at hs
    have hn := length_cutNot (c :: r)
    split
    · simp
    · next negated r' hc =>
      rw [hc] at hn
      have h1 := length_upTo '>' r'
      have h2 := h (upTo '>' r').2
      simp only [length_cons] at hn hs ⊢
      omega
    · next negated r' hc =>
      rw [hc] at hn
      have h1 := length_upTo ']' r'
      have h2 := h (upTo ']' r').2
      simp only [length_cons] at hn hs ⊢
      omega
    · next negated d r' _ _ hc =>
      rw [hc] at hn
      have h1 := h r'
      simp only [length_cons] at hn hs
      omega

theorem parseList_length (n : ℕ) (s : Text) : (parseList n s).2.length ≤ s.length := by
  induction n generalizing s with
  | zero => exact le_refl _
  | succ n ih => exact parseRound_length ih

/-- Every round takes a character: with more rounds than characters the number of rounds is irrelevant. -/
theorem parseList_fuel {m : ℕ} (hn : s.length < n) (hm : s.length < m) :
    parseList n s = parseList m s := by
  induction n generalizing m s with
  | zero => omega
  | succ n ih =>
    obtain ⟨m, rfl⟩ := Nat.exists_eq_succ_of_ne_zero (by omega : m ≠ 0)
    exact parseRound_congr fun t ht => ih (by omega) (by omega)

theorem parseLists_fuel {m : ℕ} (hn : s.length < n) (hm : s.length < m) :
    parseLists n s = parseLists m s := by
  induction n generalizing m s with
  | zero => omega
  | succ n ih =>
    obtain ⟨m, rfl⟩ := Nat.exists_eq_succ_of_ne_zero (by omega : m ≠ 0)
    rcases s with _ | ⟨c, r⟩
    · rfl
    · rw [length_cons] at hn hm
      have hagree : ∀ t : Text, t.length ≤ r.length → parseLists n t = parseLists m t :=
        fun t ht => ih (by omega) (by omega)
      by_cases h1 : c = '<'
      · subst h1
        exact hagree _ (length_upTo '>' r)
      · by_cases h2 : c = '('
        · subst h2
          have hl := hagree _ (parseList_length (r.length + 1) r)
          simp [parseLists, hl]
        · have hstep : ∀ k, parseLists (k + 1) (c :: r) = parseLists k r := by
            intro k
            rw [parseLists]
            · exact h1
            · exact h2
          rw [hstep, hstep, hagree r (le_refl _)]

/-! ### The lock a guard finds -/

variable {st : WebDavLockStore} {now : ℕ} {p q : Path} {e : LockEntry}

theorem mem_ancestorsRev {r : Text} : p ∈ ancestorsRev r ↔ p ≠ [] ∧ '/' :: p.reverse <:+ r := by
  induction r with
  | nil => simp [ancestorsRev]
  | cons c r ih =>
    rw [ancestorsRev, suffix_cons_iff]
    by_cases hc : c = '/'
    · rw [if_pos hc]
      by_cases hr : r = []
      · subst hr
        simp only [if_true, not_mem_nil, false_iff, not_and]
        intro hne h
        rcases h with h | h
        · exact hne (by simpa using (List.cons.inj h).2)
        · simp at h
      · rw [if_neg hr, mem_cons, ih]
        constructor
        · rintro (rfl | ⟨hne, h⟩)
          · exact ⟨by simpa using hr, .inl (by rw [hc, reverse_reverse])⟩
          · exact ⟨hne, .inr h⟩
        · rintro ⟨hne, h | h⟩
          · exact .inl (by rw [← (List.cons.inj h).2, reverse_reverse])
          · exact .inr ⟨hne, h⟩
    · rw [if_neg hc, ih]
      refine and_congr_right fun _ => ?_
      constructor
      · exact .inr
      · rintro (h | h)
        · exact absurd (List.cons.inj h).1.symm hc
        · exact h

/-- The guard looks at every path above, except the empty one. -/
theorem mem_ancestors : p ∈ ancestors q ↔ p ≠ [] ∧ p ++ ['/'] <+: q := by
  have hrev : (p ++ ['/']).reverse <:+ q.reverse ↔ p ++ ['/'] <+: q := reverse_suffix
  rw [ancestors, mem_ancestorsRev, ← hrev, reverse_append, reverse_singleton,
    singleton_append]

theorem lockFor_cases (h : lockFor st now p = some e) :
    ∃ q, st.getByPath now q = some e ∧ (q = p ∨ q ∈ ancestors p ∧ e.info.depth = .infinity) := by
  rcases hp : st.getByPath now p with _ | e'
  · have h : ((ancestors p).findSome? fun p =>
        (st.getByPath now p).filter fun e => e.info.depth = .infinity) = some e := by
      simpa [lockFor, hp] using h
    obtain ⟨q, hq, hf⟩ := List.exists_of_findSome?_eq_some h
    obtain ⟨he, hd⟩ := Option.filter_eq_some_iff.mp hf
    exact ⟨q, he, .inr ⟨hq, of_decide_eq_true hd⟩⟩
  · have h : e' = e := by simpa [lockFor, hp] using h
    exact ⟨p, by rw [hp, h], .inl rfl⟩

theorem lockFor_isSome (h : st.getByPath now q = some e)
    (hq : q = p ∨ q ∈ ancestors p ∧ e.info.depth = .infinity) : (lockFor st now p).isSome := by
  rcases hp : st.getByPath now p with _ | e'
  · rcases hq with rfl | ⟨hq, hd⟩
    · rw [h] at hp
      cases hp
    · have hsome : ((ancestors p).findSome? fun p =>
          (st.getByPath now p).filter fun e => e.info.depth = .infinity).isSome := by
        rw [List.findSome?_isSome_iff]
        exact ⟨q, hq, by simp [h, hd]⟩
      simpa [lockFor, hp] using hsome
  · simp [lockFor, hp]

/-! ### What the guard lets through -/

variable {header : Option Text} {etag : Option Text}

/-- **The lock that is found must be presented.** -/
theorem presented_of_enforce (h : enforceNativeLock st now header p etag = none)
    (he : lockFor st now p = some e) : e.info.token ∈ presentedBy header := by
  rcases hl : (header.map parseIfHeader).getD [] with _ | ⟨a, ls⟩
  · simp [enforceNativeLock, he, hl] at h
  · by_cases hm : e.info.token ∈ presented (a :: ls)
    · rwa [presentedBy, hl]
    · simp [enforceNativeLock, he, hl, evaluateIfHeader, hm] at h

/-- A header with one token holds where the lock with this token is found. -/
theorem enforce_single (T : Token) (hT : '>' ∉ T) :
    enforceNativeLock st now (some (render [[.stateToken false T]])) p etag = none ↔
      (lockFor st now p).map (fun e => e.info.token) = some T := by
  have hparse : parseIfHeader (render [[.stateToken false T]]) = [[.stateToken false T]] := by
    refine parseIfHeader_render ?_
    simpa [IfCondition.Plain] using hT
  rcases he : lockFor st now p with _ | e
  · simp [enforceNativeLock, hparse, he, evaluateIfHeader, IfCondition.holds]
  · by_cases ht : e.info.token = T <;>
      simp [enforceNativeLock, hparse, he, evaluateIfHeader, IfCondition.holds, presented, ht]

/-- A header that presents some tokens and holds everywhere. -/
def openHeader (F : List Token) : Text :=
  render (F.map (fun T => [.stateToken false T]) ++ [[.stateToken true ('x' :: F.flatten)]])

theorem not_mem_own (F : List Token) : 'x' :: F.flatten ∉ F := by
  intro h
  have := List.Sublist.length_le (sublist_flatten_of_mem h)
  rw [length_cons] at this
  omega

variable {F : List Token}

theorem parse_openHeader (hF : ∀ T ∈ F, '>' ∉ T) : parseIfHeader (openHeader F) =
    F.map (fun T => [.stateToken false T]) ++ [[.stateToken true ('x' :: F.flatten)]] := by
  refine parseIfHeader_render fun l hl => ?_
  rcases mem_append.mp hl with hl | hl
  · obtain ⟨T, hT, rfl⟩ := mem_map.mp hl
    simpa [IfCondition.Plain] using hF T hT
  · obtain rfl := mem_singleton.mp hl
    refine ⟨cons_ne_nil _ _, fun c hc => ?_⟩
    obtain rfl := mem_singleton.mp hc
    intro hmem
    rcases mem_cons.mp hmem with hmem | hmem
    · revert hmem
      decide
    · obtain ⟨T, hT, hmem⟩ := mem_flatten.mp hmem
      exact hF T hT hmem

theorem presentedBy_openHeader (hF : ∀ T ∈ F, '>' ∉ T) : presentedBy (some (openHeader F)) = F := by
  rw [presentedBy, Option.map_some, Option.getD_some, parse_openHeader hF, presented, flatten_append,
    filterMap_append]
  have hmap : (F.map fun T => [IfCondition.stateToken false T]).flatten = F.map (.stateToken false) := by
    induction F with
    | nil => rfl
    | cons T F ih => simpa using ih fun T hT => hF T (mem_cons_of_mem _ hT)
  rw [hmap, filterMap_map]
  simp

/-- It passes every guard whose lock is among its tokens. -/
theorem enforce_openHeader (hF : ∀ T ∈ F, '>' ∉ T)
    (he : ∀ e, lockFor st now p = some e → e.info.token ∈ F) :
    enforceNativeLock st now (some (openHeader F)) p etag = none := by
  have hpres : presented (F.map (fun T => [.stateToken false T]) ++
      [[.stateToken true ('x' :: F.flatten)]]) = F := by
    rw [← parse_openHeader hF]
    exact presentedBy_openHeader hF
  have hx := not_mem_own F
  rcases hl : lockFor st now p with _ | e
  · simp [enforceNativeLock, parse_openHeader hF, hl, evaluateIfHeader, IfCondition.holds]
  · have hm := he e hl
    have hne : e.info.token ≠ 'x' :: F.flatten := fun h => hx (h ▸ hm)
    simp [enforceNativeLock, parse_openHeader hF, hl, evaluateIfHeader, IfCondition.holds, hpres, hm, hne]

end OxiCloud.WebDav.IfHeader
