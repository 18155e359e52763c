import OxiCloud.Acl.Decisions
import OxiCloud.Acl.Groups
import OxiCloud.Lib.Chains
import OxiCloud.Lib.Runs

/-! # How deep groups are nested

The depth check of `add_member` measures the chains below the group that receives the member, with the
member already in it. The groups above are not measured: a chain that is built from above grows without
bound, one link at a time. `Fits` is what the chains above and below a new link need, and the nesting
stays within `MAX_GROUP_DEPTH` all along a run exactly if every accepted call fits (`shallow_run_iff`). Where
the receiving group is in no other group, the check of the code is enough (`fits_of_top`). -/

namespace OxiCloud.Acl.Nesting

open Lib.Chains Lib.Cascades Folders Schema Acl.Groups Finset

/-- The group `b` is a member of the group `a`. -/
def Nests (ms : Members) (a b : GroupId) : Prop := (a, .group b) ∈ ms

/-- No chain of nested groups is longer than the code allows. -/
def Shallow (ms : Members) : Prop := Bounded (Nests ms) maxGroupDepth

variable {ms : Members} {x : Service} {n fuel : ℕ} {a b c g : GroupId} {caller : UserId}

/-! ### Membership rows as links -/

theorem nests_insert_group : Nests (insert (g, .group c) ms) = WithLink (Nests ms) g c := by
  funext a b
  unfold Nests WithLink
  rw [mem_insert, Prod.mk.injEq, GroupMember.group.injEq, or_comm]

theorem nests_insert_user {u : UserId} : Nests (insert (g, .user u) ms) = Nests ms := by
  funext a b
  unfold Nests
  simp

theorem mem_descendants : b ∈ descendants ms a ↔ ∃ n, Chain (Nests ms) n a b := by
  constructor
  · intro h
    refine cascade_induction (P := fun y => ∃ n, Chain (Nests ms) n a y) ?_ ?_ b h
    · intro y hy
      rw [mem_singleton.mp hy]
      exact ⟨0, .nil a⟩
    · rintro y z _ ⟨n, hz⟩ hyz
      exact ⟨n + 1, hz.append (.single hyz)⟩
  · rintro ⟨n, h⟩
    have hdown : ∀ {n y}, Chain (Nests ms) n y b → y ∈ descendants ms a → b ∈ descendants ms a := by
      intro n y hc
      induction hc with
      | nil _ => exact fun hy => hy
      | cons hl _ ih => exact fun hy => ih h (mem_descendants_nested hy hl)
    exact hdown h (self_mem_descendants ms a)

/-- What the cycle check and the depth check leave. -/
theorem refuseNesting_ok (h : refuseNesting ms g (.group c) = .ok ()) :
    (∀ n, ¬ Chain (Nests ms) n c g) ∧ maxDepth ms g c % 256 ≤ maxGroupDepth := by
  simp only [refuseNesting] at h
  split_ifs at h with hself hcyc hdeep
  exact ⟨fun n hn => hcyc (mem_descendants.mpr ⟨n, hn⟩), Nat.le_of_not_lt hdeep⟩

/-! ### The depth check -/

theorem mem_childGroups : c ∈ childGroups ms g ↔ Nests ms g c := by
  unfold childGroups nestedGroups Nests
  rw [mem_biUnion]
  constructor
  · rintro ⟨⟨a, u | b⟩, hr, hc⟩
    · exact absurd hc (notMem_empty c)
    · obtain ⟨hm, rfl⟩ := mem_filter.mp hr
      rw [mem_singleton.mp hc]
      exact hm
  · intro h
    exact ⟨(g, .group c), mem_filter.mpr ⟨h, rfl⟩, mem_singleton_self c⟩

theorem le_depthBelow (h : Chain (Nests ms) n a b) (hn : n ≤ fuel) : n ≤ depthBelow ms fuel a := by
  induction h generalizing fuel with
  | nil a => exact Nat.zero_le _
  | @cons n a c b hl _ ih =>
    rcases fuel with _ | fuel
    · omega
    · have hrest : n ≤ depthBelow ms fuel c := ih (by omega)
      have hsup : depthBelow ms fuel c + 1 ≤ depthBelow ms (fuel + 1) a :=
        le_sup (f := fun c => depthBelow ms fuel c + 1) (mem_childGroups.mpr hl)
      omega

theorem exists_chain (ms : Members) (fuel : ℕ) (a : GroupId) :
    ∃ b, Chain (Nests ms) (depthBelow ms fuel a) a b := by
  induction fuel generalizing a with
  | zero => exact ⟨a, .nil a⟩
  | succ fuel ih =>
    rcases (childGroups ms a).eq_empty_or_nonempty with he | hne
    · rw [depthBelow, he]
      exact ⟨a, .nil a⟩
    · obtain ⟨c, hc, hsup⟩ := exists_mem_eq_sup _ hne fun c => depthBelow ms fuel c + 1
      obtain ⟨b, hb⟩ := ih c
      rw [depthBelow, hsup]
      exact ⟨b, .cons (mem_childGroups.mp hc) hb⟩

/-- With as much fuel as there are rows no chain is missed. -/
theorem chain_le_depthBelow (hac : Acyclic (Nests ms)) (h : Chain (Nests ms) n a b) :
    n ≤ depthBelow ms ms.card a := by
  have hlink : ∀ {a b a' b' : GroupId}, (a, GroupMember.group b) = (a', GroupMember.group b') →
      a = a' ∧ b = b' := by
    intro a b a' b' heq
    obtain ⟨rfl, hb⟩ := Prod.mk.inj heq
    exact ⟨rfl, GroupMember.group.inj hb⟩
  exact le_depthBelow h (Chain.le_card hlink hac h)

/-- What the depth check says of a shallow table: the chains below the member leave room for its link. -/
theorem below_of_maxDepth (h : Shallow ms) (hdepth : maxDepth ms g c % 256 ≤ maxGroupDepth)
    (hc : Chain (Nests ms) n c b) : n + 1 ≤ maxGroupDepth := by
  have hbelow : ∀ a, depthBelow ms ms.card a ≤ maxGroupDepth := by
    intro a
    obtain ⟨b, hb⟩ := exists_chain ms ms.card a
    exact h _ a b hb
  have hg := hbelow g
  have hc' := hbelow c
  have hle := chain_le_depthBelow h.acyclic hc
  have hmax : depthBelow ms ms.card c + 1 ≤ maxDepth ms g c := Nat.le_max_right _ _
  have hsmall : maxDepth ms g c ≤ 9 := Nat.max_le.mpr ⟨by unfold maxGroupDepth at hg; omega,
    by unfold maxGroupDepth at hc'; omega⟩
  omega

/-! ### Runs -/

inductive Call where
  | addMember (group : GroupId) (member : GroupMember) (caller : UserId)
  | removeMember (group : GroupId) (member : GroupMember)

def apply (x : Service) : Call → Service
  | .addMember group member caller => (addMember x group member caller).2
  | .removeMember group member => (Groups.removeMember x group member).2

def run : Service → List Call → Service
  | x, [] => x
  | x, call :: l => run (apply x call) l

/-- The chains that end in the group, the new link and the chains from the member on are together not
longer than allowed; asked of admissible members that are groups. -/
def Fits (x : Service) : Call → Prop
  | .addMember group (.group child) caller => Admissible x.db group (.group child) caller →
    ∀ p q a b, Chain (Nests x.db.members) p a group → Chain (Nests x.db.members) q child b →
      p + 1 + q ≤ maxGroupDepth
  | _ => True

/-- Every call of the run fits. -/
def FittingRun : Service → List Call → Prop
  | _, [] => True
  | x, call :: l => Fits x call ∧ FittingRun (apply x call) l

section

variable (h : Shallow x.db.members)
include h

theorem shallow_addGroup_iff :
    Shallow (addMember x g (.group c) caller).2.db.members ↔ Fits x (.addMember g (.group c) caller) := by
  rcases addMember_cases x g (.group c) caller with ⟨⟨err, hr⟩, hno⟩ | ⟨hadm, e, hr⟩
  · exact iff_of_true (by rw [hr]; exact h) fun hadm => absurd hadm hno
  · obtain ⟨hcyc, -⟩ := refuseNesting_ok hadm.nesting
    rw [hr]
    show Bounded (Nests (insert (g, .group c) x.db.members)) maxGroupDepth ↔ _
    rw [nests_insert_group, bounded_withLink_iff h hcyc]
    exact ⟨fun hall _ => hall, fun hfit => hfit hadm⟩

theorem Shallow.addUser {u : UserId} : Shallow (addMember x g (.user u) caller).2.db.members := by
  rcases addMember_cases x g (.user u) caller with ⟨⟨err, hr⟩, -⟩ | ⟨-, e, hr⟩
  · rw [hr]
    exact h
  · rw [hr]
    show Bounded (Nests (insert (g, .user u) x.db.members)) maxGroupDepth
    rw [nests_insert_user]
    exact h

theorem Shallow.removeMember (g : GroupId) (member : GroupMember) :
    Shallow (Groups.removeMember x g member).2.db.members := by
  rcases removeMember_cases x g member with ⟨err, hr⟩ | ⟨-, e, hr⟩
  · rw [hr]
    exact h
  · rw [hr]
    exact Bounded.mono h fun _ _ hl => mem_of_mem_erase hl

/-- **A call keeps the nesting shallow exactly if it fits.** -/
theorem shallow_apply_iff (call : Call) : Shallow (apply x call).db.members ↔ Fits x call := by
  rcases call with ⟨group, u | child, caller⟩ | ⟨group, member⟩
  · exact iff_of_true h.addUser trivial
  · exact shallow_addGroup_iff h
  · exact iff_of_true (h.removeMember group member) trivial

end

theorem shallow_empty : Shallow ∅ :=
  bounded_of_rank (f := fun _ => 0) (fun _ _ h => absurd h (notMem_empty _)) fun _ => Nat.zero_le _

theorem shallow_run_of_shallow (x : Service) (l : List Call) (h : Shallow x.db.members) :
    (∀ n, Shallow (run x (l.take n)).db.members) ↔ FittingRun x l :=
  Lib.Runs.always_iff (I := fun x => Shallow x.db.members) (fun _ _ => True) (fun l x => FittingRun x l)
    (fun l x => ∀ n, Shallow (run x (l.take n)).db.members) (fun _ => by simp [run])
    (fun _ _ _ => Nat.and_forall_add_one.symm) (fun _ => trivial) (fun _ _ _ => Iff.rfl)
    (fun call _ _ _ => ⟨trivial, fun h => shallow_apply_iff h call⟩) trivial h

/-- **A group that is in no other group may receive whatever the depth check lets pass.** -/
theorem fits_of_top (h : Shallow x.db.members) (htop : ∀ a, ¬ Nests x.db.members a g) :
    Fits x (.addMember g (.group c) caller) := by
  intro hadm p q a b hp hq
  obtain ⟨-, hdepth⟩ := refuseNesting_ok hadm.nesting
  have hp0 := hp.eq_zero htop
  have hq' := below_of_maxDepth h hdepth hq
  omega

/-- The groups up to 11 and the administrator 5, nobody in a group. -/
def lobby : Store :=
  { office [] with
    groups := .ofKeys (Finset.range 12) fun _ => some false
    members := ∅ }

/-- Nine calls that each put the next group into the last one. -/
def ladder : List Call := (List.range 9).map fun i => .addMember (i + 2) (.group (i + 3)) 5

end OxiCloud.Acl.Nesting
