import ConstFlow.Proofs.Placement

/-!
# The user index

`Func.Indexed` says that the stored users of a value are exactly the live instructions that read it.
`Func.rebuildUsers` establishes it, and the three edits keep it, each with bookkeeping of its own.
Beside it stands what each edit does to the instructions and to the blocks:

* `Func.replaceUses_spec` : one substitution in all instructions, although only the stored users are
  visited;
* `Func.remove_spec` : the slot is emptied and no block lists the instruction any more;
* `Func.replaceTerminator_spec` : one instruction does something else.
-/

namespace ConstFlow

namespace Op

theorem mem_uses {op : Op} {d : InstrId} : d ∈ op.uses ↔ .value d ∈ op.operands := by
  unfold uses
  rw [List.mem_filterMap]
  constructor
  · rintro ⟨o, ho, hd⟩
    cases o with
    | value id =>
      simp only [Operand.value?, Option.some.injEq] at hd
      exact hd ▸ ho
    | const c => cases hd
    | undef => cases hd
  · intro h
    exact ⟨.value d, h, rfl⟩

theorem value_mem_operands {op : Op} {p : PhiInput} (h : p ∈ op.phiInputs) :
    p.value ∈ op.operands := by
  revert h
  cases op with
  | phi inputs => exact fun h => List.mem_map_of_mem h
  | _ => exact fun h => absurd h List.not_mem_nil

theorem mapOperands_congr {g g' : Operand → Operand} {op : Op}
    (h : ∀ o ∈ op.operands, g o = g' o) : op.mapOperands g = op.mapOperands g' := by
  cases op with
  | jump t => rfl
  | branch c t e => simp_all [mapOperands, operands]
  | ret v => cases v <;> simp_all [mapOperands, operands]
  | compare p l r => simp_all [mapOperands, operands]
  | phi inputs => simpa [mapOperands, operands] using h
  | add l r => simp_all [mapOperands, operands]
  | sub l r => simp_all [mapOperands, operands]
  | uninterpreted n args => simpa [mapOperands, operands] using h

@[simp] theorem mapOperands_id (op : Op) : op.mapOperands (fun o => o) = op := by
  cases op with
  | ret v => cases v <;> rfl
  | phi inputs => simp [mapOperands]
  | uninterpreted n args => simp [mapOperands]
  | _ => rfl

/-- Replacing a value that is not read changes nothing. -/
theorem substitute_of_not_mem {op : Op} {id : InstrId} (h : id ∉ op.uses) (new : Operand) :
    op.substitute id new = op := by
  rw [mem_uses] at h
  refine (mapOperands_congr fun o ho => ?_).trans op.mapOperands_id
  rw [if_neg]
  simp only [Operand.references, beq_iff_eq]
  rintro rfl
  exact h ho

theorem mem_uses_substitute {op : Op} {id d : InstrId} {new : Operand} :
    d ∈ (op.substitute id new).uses ↔ d ≠ id ∧ d ∈ op.uses ∨ id ∈ op.uses ∧ new = .value d := by
  simp only [mem_uses, substitute, operands_mapOperands, List.mem_map, Operand.references,
    beq_iff_eq]
  constructor
  · rintro ⟨o, ho, heq⟩
    split at heq
    · next hid => exact .inr ⟨hid ▸ ho, heq⟩
    · next hid =>
      subst heq
      exact .inl ⟨fun h => hid (h ▸ rfl), ho⟩
  · rintro (⟨hne, hd⟩ | ⟨hid, rfl⟩)
    · exact ⟨_, hd, if_neg fun h => hne (Operand.value.inj h)⟩
    · exact ⟨_, hid, if_pos rfl⟩

end Op

namespace Func

/-! ## Linking and unlinking -/

section Fold
variable (g : List InstrId → List InstrId) (values : List InstrId) (users : Array (List InstrId))

theorem size_foldl_modify : (values.foldl (fun us v => us.modify v g) users).size = users.size := by
  induction values generalizing users with
  | nil => rfl
  | cons v values ih => rw [List.foldl_cons, ih, Array.size_modify]

/-- A change that has no effect the second time is made once, however often a value is listed. -/
theorem getElem?_foldl_modify (hg : ∀ l, g (g l) = g l) (d : InstrId) :
    (values.foldl (fun us v => us.modify v g) users)[d]? =
      users[d]?.map fun l => if d ∈ values then g l else l := by
  induction values generalizing users with
  | nil => simp
  | cons v values ih =>
    rw [List.foldl_cons, ih, Array.getElem?_modify]
    by_cases hv : v = d
    · subst hv
      simp [Function.comp_def, hg]
    · simp [hv, Ne.symm hv]

theorem getD_foldl_modify (hg : ∀ l, g (g l) = g l) (d : InstrId) :
    (values.foldl (fun us v => us.modify v g) users)[d]?.getD [] =
      if d ∈ values ∧ d < users.size then g (users[d]?.getD []) else users[d]?.getD [] := by
  rw [getElem?_foldl_modify _ _ _ hg]
  by_cases hd : d < users.size
  · simp [hd]
  · rw [Array.getElem?_eq_none (Nat.le_of_not_lt hd)]
    simp [hd]

end Fold

theorem mem_addUser {id u : InstrId} {l : List InstrId} : u ∈ addUser id l ↔ u ∈ l ∨ u = id := by
  unfold addUser
  split
  · next h =>
    refine ⟨.inl, ?_⟩
    rintro (hu | rfl)
    · exact hu
    · exact h
  · simp

theorem addUser_addUser (id : InstrId) (l : List InstrId) :
    addUser id (addUser id l) = addUser id l :=
  if_pos (mem_addUser.mpr (.inr rfl))

theorem nodup_addUser {id : InstrId} {l : List InstrId} (h : l.Nodup) : (addUser id l).Nodup := by
  unfold addUser
  split
  · exact h
  · next hid =>
    refine List.nodup_append.mpr ⟨h, List.nodup_singleton id, ?_⟩
    rintro a ha b hb rfl
    exact hid (List.mem_singleton.mp hb ▸ ha)

section Link
variable (id : InstrId) (values : List InstrId) (f : Func)

@[simp] theorem instr?_link (k : InstrId) : (f.link id values).instr? k = f.instr? k := rfl

@[simp] theorem size_users_link : (f.link id values).users.size = f.users.size :=
  size_foldl_modify _ values f.users

@[simp] theorem size_users_unlink : (f.unlink id values).users.size = f.users.size :=
  size_foldl_modify _ values f.users

theorem usersOf_link (d : InstrId) : (f.link id values).usersOf d =
    if d ∈ values ∧ d < f.users.size then addUser id (f.usersOf d) else f.usersOf d :=
  getD_foldl_modify _ values f.users (addUser_addUser id) d

theorem usersOf_unlink (d : InstrId) : (f.unlink id values).usersOf d =
    if d ∈ values ∧ d < f.users.size then (f.usersOf d).filter (· ≠ id) else f.usersOf d :=
  getD_foldl_modify _ values f.users (fun l => by simp [List.filter_filter]) d

theorem mem_usersOf_link {d u : InstrId} : u ∈ (f.link id values).usersOf d ↔
    u ∈ f.usersOf d ∨ u = id ∧ d ∈ values ∧ d < f.users.size := by
  rw [usersOf_link]
  split
  · next hd => rw [mem_addUser, and_iff_left hd]
  · next hd => rw [or_iff_left fun h => hd h.2]

theorem mem_usersOf_unlink {d u : InstrId} : u ∈ (f.unlink id values).usersOf d ↔
    u ∈ f.usersOf d ∧ ¬ (u = id ∧ d ∈ values) := by
  rw [usersOf_unlink]
  split
  · next hd => simp [hd.1]
  · next hd =>
    -- a value beyond the index has no users to strike
    refine ⟨fun hu => ⟨hu, fun hand => hd ⟨hand.2, ?_⟩⟩, fun h => h.1⟩
    by_contra hlt
    rw [usersOf, Array.getElem?_eq_none (Nat.le_of_not_lt hlt)] at hu
    cases hu

theorem nodup_usersOf_link (h : ∀ d, (f.usersOf d).Nodup) (d : InstrId) :
    ((f.link id values).usersOf d).Nodup := by
  rw [usersOf_link]
  split
  · exact nodup_addUser (h d)
  · exact h d

theorem nodup_usersOf_unlink (h : ∀ d, (f.usersOf d).Nodup) (d : InstrId) :
    ((f.unlink id values).usersOf d).Nodup := by
  rw [usersOf_unlink]
  split
  · exact (h d).filter _
  · exact h d

end Link

theorem instr?_setOp (f : Func) (id : InstrId) (op : Op) (k : InstrId) :
    (f.setOp id op).instr? k =
      if k = id then (f.instr? k).map fun i => { i with op := op } else f.instr? k :=
  slot_mapped _

@[simp] theorem slotCount_setOp (f : Func) (id : InstrId) (op : Op) :
    (f.setOp id op).slotCount = f.slotCount := by
  simp [setOp, slotCount]

/-! ## The index -/

/-- The stored users of a value are the live instructions that read it, each once. -/
structure Indexed (f : Func) : Prop where
  size : f.users.size = f.slotCount
  nodup : ∀ d, (f.usersOf d).Nodup
  mem : ∀ {d}, d < f.slotCount → ∀ u,
    u ∈ f.usersOf d ↔ ∃ i, f.instr? u = some i ∧ d ∈ i.op.uses

/-- The live instructions that read a value, in slot order. -/
def readersOf (f : Func) (id : InstrId) : List InstrId :=
  (f.instrs.filter fun i => id ∈ i.op.uses).map (·.id)

/-- Instructions of different numbers enter themselves one behind the other. -/
theorem getElem?_foldl_enroll {is : List Instr} {users : Array (List InstrId)} {d : InstrId}
    {l : List InstrId} (hl : users[d]? = some l) (hnodup : (l ++ is.map (·.id)).Nodup) :
    (is.foldl (fun users i => enroll i.id i.op.uses users) users)[d]? =
      some (l ++ (is.filter fun i => d ∈ i.op.uses).map (·.id)) := by
  induction is generalizing users l with
  | nil => simpa using hl
  | cons i is ih =>
    have hi : (enroll i.id i.op.uses users)[d]? =
        some (if d ∈ i.op.uses then addUser i.id l else l) := by
      rw [enroll, getElem?_foldl_modify _ _ _ (addUser_addUser i.id), hl, Option.map_some]
    rw [List.map_cons] at hnodup
    rw [List.foldl_cons, List.filter_cons]
    by_cases hd : d ∈ i.op.uses
    · have hnew : i.id ∉ l := fun hmem =>
        (List.nodup_append.mp hnodup).2.2 _ hmem _ List.mem_cons_self rfl
      rw [if_pos hd, addUser, if_neg hnew] at hi
      rw [ih hi (by simpa using hnodup), if_pos (decide_eq_true hd)]
      simp
    · rw [if_neg hd] at hi
      rw [ih hi (hnodup.sublist ((List.sublist_cons_self _ _).append_left l)),
        if_neg (by simpa using hd)]

theorem size_foldl_enroll (is : List Instr) (users : Array (List InstrId)) :
    (is.foldl (fun users i => enroll i.id i.op.uses users) users).size = users.size := by
  induction is generalizing users with
  | nil => rfl
  | cons i is ih => rw [List.foldl_cons, ih, enroll, size_foldl_modify]

/-- What the loop over the instructions leaves. -/
theorem users_rebuildUsers {f : Func} (h : f.Placed) :
    f.rebuildUsers.users = (Array.range f.slotCount).map f.readersOf := by
  have hsize : f.rebuildUsers.users.size = f.slotCount :=
    (size_foldl_enroll _ _).trans Array.size_replicate
  refine Array.ext_getElem? fun d => ?_
  rw [Array.getElem?_map, Array.getElem?_range]
  by_cases hd : d < f.slotCount
  · rw [if_pos hd, rebuildUsers, getElem?_foldl_enroll (l := []) (by simp [hd])
      (by simpa using h.nodup_ids)]
    rfl
  · rw [if_neg hd, Array.getElem?_eq_none (hsize ▸ Nat.le_of_not_lt hd)]
    rfl

theorem indexed_rebuildUsers {f : Func} (h : f.Placed) : f.rebuildUsers.Indexed := by
  have husers : ∀ d, f.rebuildUsers.usersOf d = if d < f.slotCount then f.readersOf d else [] := by
    intro d
    rw [usersOf, users_rebuildUsers h, Array.getElem?_map, Array.getElem?_range]
    split <;> rfl
  constructor
  case size =>
    rw [users_rebuildUsers h, Array.size_map, Array.size_range]
    rfl
  case nodup =>
    intro d
    rw [husers]
    split
    · exact h.nodup_ids.sublist ((List.filter_sublist).map _)
    · exact List.nodup_nil
  case mem =>
    intro d hd u
    rw [husers, if_pos (by exact hd)]
    simp only [readersOf, List.mem_map, List.mem_filter, mem_instrs, decide_eq_true_eq]
    constructor
    · rintro ⟨i, ⟨⟨k, hk⟩, hread⟩, rfl⟩
      refine ⟨i, ?_, hread⟩
      rw [h.slot hk]
      exact hk
    · rintro ⟨i, hi, hread⟩
      exact ⟨i, ⟨⟨u, hi⟩, hread⟩, h.slot hi⟩

theorem Indexed.recomputePreds {f : Func} (h : f.Indexed) : f.recomputePreds.Indexed :=
  ⟨h.size, h.nodup, h.mem⟩

theorem indexed_ofScript (name : String) (script : List Stmt) : (ofScript name script).Indexed :=
  indexed_rebuildUsers (placed_ofScript name script)

/-! ## Replacing uses -/

/-- The users in `done` read `new` in place of `id`, and the index tells so. -/
structure Rewritten (f : Func) (id : InstrId) (new : Operand) (done : List InstrId) (g : Func) :
    Prop where
  name : g.name = f.name
  blocks : g.blocks = f.blocks
  slots : g.slotCount = f.slotCount
  size : g.users.size = f.users.size
  instr : ∀ k, g.instr? k =
    (f.instr? k).map fun i => if k ∈ done then { i with op := i.op.substitute id new } else i
  nodup : ∀ d, (g.usersOf d).Nodup
  mem : ∀ d u, u ∈ g.usersOf d ↔ d ≠ id ∧ u ∈ f.usersOf d ∨
    u ∈ done ∧ new = .value d ∧ (f.instr? u).isSome ∧ d < f.users.size

theorem Rewritten.start {f : Func} (h : f.Indexed) (id : InstrId) (new : Operand) :
    Rewritten f id new [] { f with users := f.users.setIfInBounds id [] } := by
  have husers : ∀ d, usersOf { f with users := f.users.setIfInBounds id [] } d =
      if d = id then [] else f.usersOf d := by
    intro d
    simp only [usersOf, Array.getElem?_setIfInBounds]
    by_cases hd : id = d
    · subst hd
      rw [if_pos rfl, if_pos rfl]
      split <;> rfl
    · rw [if_neg hd, if_neg (Ne.symm hd)]
  constructor
  case name => rfl
  case blocks => rfl
  case slots => rfl
  case size => simp
  case instr => simp [instr?]
  case nodup =>
    intro d
    rw [husers]
    split
    · exact List.nodup_nil
    · exact h.nodup d
  case mem =>
    intro d u
    rw [husers]
    by_cases hd : d = id
    · simp [hd]
    · simp [hd]

theorem Rewritten.step {f g : Func} {id : InstrId} {new : Operand} {done : List InstrId}
    (h : Rewritten f id new done g) {u : InstrId} (hu : u ∉ done) (n : Nat) :
    Rewritten f id new (done ++ [u]) (replaceIn id new (n, g) u).2 := by
  have hself := h.instr u
  unfold replaceIn
  cases hi : f.instr? u with
  | none =>
    -- nothing is replaced, and a slot that is not live counts as done
    rw [hi, Option.map_none] at hself
    simp only [hself]
    refine { h with instr := fun k => ?_, mem := fun d v => ?_ }
    · rw [h.instr]
      by_cases hk : k = u
      · rw [hk, hi]
        rfl
      · simp [hk]
    · rw [h.mem, List.mem_append, List.mem_singleton]
      refine or_congr_right ⟨fun ⟨hv, hrest⟩ => ⟨.inl hv, hrest⟩, ?_⟩
      rintro ⟨hv | rfl, hrest⟩
      · exact ⟨hv, hrest⟩
      · rw [hi] at hrest
        simp at hrest
  | some i =>
    rw [hi, Option.map_some, if_neg hu] at hself
    simp only [hself]
    constructor
    case name => exact h.name
    case blocks => exact h.blocks
    case slots => exact (slotCount_setOp _ _ _).trans h.slots
    case size => rw [size_users_link]; exact h.size
    case instr =>
      intro k
      rw [instr?_link, instr?_setOp, h.instr]
      by_cases hk : k = u
      · subst hk
        simp [hi, hu]
      · simp [hk]
    case nodup => exact nodup_usersOf_link _ _ _ h.nodup
    case mem =>
      intro d v
      rw [mem_usersOf_link]
      show v ∈ g.usersOf d ∨ _ ↔ _
      have hval : d ∈ new.value?.toList ↔ new = .value d := by
        cases new <;> simp [Operand.value?, eq_comm]
      rw [h.mem, List.mem_append, List.mem_singleton, hval,
        show (g.setOp u (i.op.substitute id new)).users.size = f.users.size from h.size]
      constructor
      · rintro ((hold | ⟨hv, hrest⟩) | ⟨rfl, hnew, hlt⟩)
        · exact .inl hold
        · exact .inr ⟨.inl hv, hrest⟩
        · exact .inr ⟨.inr rfl, hnew, by rw [hi]; rfl, hlt⟩
      · rintro (hold | ⟨hv | rfl, hnew, hlive, hlt⟩)
        · exact .inl (.inl hold)
        · exact .inl (.inr ⟨hv, hnew, hlive, hlt⟩)
        · exact .inr ⟨rfl, hnew, hlt⟩

theorem Rewritten.foldl {f : Func} {id : InstrId} {new : Operand} (us : List InstrId) :
    ∀ {done : List InstrId} {p : Nat × Func}, Rewritten f id new done p.2 → (done ++ us).Nodup →
      Rewritten f id new (done ++ us) (us.foldl (replaceIn id new) p).2 := by
  induction us with
  | nil =>
    intro done p h _
    simpa using h
  | cons u us ih =>
    intro done p h hnodup
    have hu : u ∉ done := fun hmem =>
      (List.nodup_append.mp hnodup).2.2 u hmem u List.mem_cons_self rfl
    have hstep := h.step hu p.1
    rw [List.append_cons] at hnodup ⊢
    exact ih hstep hnodup

/-- Replacing a value by another operand substitutes it in every live instruction and leaves the
index exact. -/
theorem replaceUses_spec {f g : Func} {id : InstrId} {new : Operand} {n : Nat} (h : f.Indexed)
    (hne : new ≠ .value id) (hg : f.replaceUses id new = .ok (n, g)) :
    g.name = f.name ∧ g.blocks = f.blocks ∧ g.slotCount = f.slotCount ∧ g.Indexed ∧
      ∀ k, g.instr? k = (f.instr? k).map fun i => { i with op := i.op.substitute id new } := by
  unfold replaceUses at hg
  split at hg
  · cases hg
  · next i hi =>
    rw [if_neg (by simpa [Operand.references] using hne), Except.ok.injEq] at hg
    have hr := Rewritten.foldl (f.usersOf id)
      (p := (0, { f with users := f.users.setIfInBounds id [] })) (Rewritten.start h id new)
      (by simpa using h.nodup id)
    rw [hg, List.nil_append] at hr
    have hmem := h.mem (lt_slotCount hi)
    -- a live instruction that was not visited does not read the value
    have hinstr : ∀ k, g.instr? k =
        (f.instr? k).map fun i => { i with op := i.op.substitute id new } := by
      intro k
      rw [hr.instr]
      cases hk : f.instr? k with
      | none => rfl
      | some j =>
        rw [Option.map_some, Option.map_some]
        split
        · rfl
        · next hnot =>
          have : id ∉ j.op.uses := fun huse => hnot ((hmem k).mpr ⟨j, hk, huse⟩)
          rw [Op.substitute_of_not_mem this]
    refine ⟨hr.name, hr.blocks, hr.slots, ⟨?_, hr.nodup, ?_⟩, hinstr⟩
    · rw [hr.size, hr.slots, h.size]
    · intro d hd u
      rw [hr.slots] at hd
      rw [hr.mem, hinstr, h.size, hmem, h.mem hd]
      constructor
      · rintro (⟨hdid, j, hj, huse⟩ | ⟨⟨j, hj, huse⟩, hnew, -, -⟩)
        · exact ⟨_, by rw [hj]; rfl, Op.mem_uses_substitute.mpr (.inl ⟨hdid, huse⟩)⟩
        · exact ⟨_, by rw [hj]; rfl, Op.mem_uses_substitute.mpr (.inr ⟨huse, hnew⟩)⟩
      · rintro ⟨j', hj', huse⟩
        obtain ⟨j, hj, rfl⟩ := Option.map_eq_some_iff.mp hj'
        rcases Op.mem_uses_substitute.mp huse with ⟨hdid, huse⟩ | ⟨huse, hnew⟩
        · exact .inl ⟨hdid, j, hj, huse⟩
        · exact .inr ⟨⟨j, hj, huse⟩, hnew, by rw [hj]; rfl, hd⟩

theorem replaceUses_self {f g : Func} {id : InstrId} {n : Nat}
    (hg : f.replaceUses id (.value id) = .ok (n, g)) : g = f := by
  unfold replaceUses at hg
  split at hg
  · cases hg
  · rw [if_pos (by simp [Operand.references]), Except.ok.injEq, Prod.mk.injEq] at hg
    exact hg.2.symm

/-! ## Removing an instruction -/

/-- Detaching an instruction from its owner strikes it from every list. -/
theorem Placed.detach_eq {f : Func} (h : f.Placed) {id : InstrId} {i : Instr}
    (hi : f.instr? id = some i) (b : BlockId) :
    (f.blocks.modify i.block (·.detach id))[b]? =
      (f.block? b).map fun blk => { blk with instrs := blk.instrs.filter (· ≠ id) } := by
  rw [Array.getElem?_modify]
  show (if i.block = b then (f.block? b).map (·.detach id) else f.block? b) = _
  cases hblk : f.block? b with
  | none => simp
  | some blk =>
    rw [Option.map_some, Option.map_some]
    split
    · rw [Block.detach, (h.nodup hblk).erase_eq_filter]
      congr 3
      funext j
      rw [Bool.eq_iff_iff, bne_iff_ne, decide_eq_true_eq]
    · next hown =>
      have hnot : ∀ j ∈ blk.instrs, decide (j ≠ id) = true := by
        intro j hj
        obtain ⟨k, hk, hb⟩ := (h.mem hblk j).mp hj
        rw [decide_eq_true_eq]
        rintro rfl
        obtain rfl : k = i := Option.some.inj (hk.symm.trans hi)
        exact hown hb
      rw [List.filter_eq_self.mpr hnot]

/-- Removing an instruction empties its slot and strikes it from every list. -/
theorem remove_spec {f g : Func} {id : InstrId} {i : Instr} (hp : f.Placed) (hx : f.Indexed)
    (hg : f.remove id = .ok (i, g)) :
    f.instr? id = some i ∧ g.name = f.name ∧ g.slotCount = f.slotCount ∧ g.Placed ∧ g.Indexed ∧
      (∀ k, g.instr? k = if k = id then none else f.instr? k) ∧
      ∀ b, g.block? b =
        (f.block? b).map fun blk => { blk with instrs := blk.instrs.filter (· ≠ id) } := by
  unfold remove at hg
  split at hg
  · cases hg
  · next j hj =>
    rw [Except.ok.injEq, Prod.mk.injEq] at hg
    obtain ⟨rfl, rfl⟩ := hg
    have hslots : (f.arena.setIfInBounds id none).size = f.slotCount := by simp [slotCount]
    refine ⟨hj, rfl, hslots, hp.vacate hj, ⟨?_, ?_, ?_⟩, fun k => slot_vacated,
      hp.detach_eq hj⟩
    · rw [size_users_unlink]
      exact hx.size.trans hslots.symm
    · exact nodup_usersOf_unlink _ _ _ hx.nodup
    · intro d hd u
      rw [mem_usersOf_unlink]
      show u ∈ f.usersOf d ∧ _ ↔ ∃ k, (f.arena.setIfInBounds id none)[u]?.join = some k ∧ _
      rw [slot_vacated, hx.mem (hslots ▸ hd)]
      by_cases hu : u = id
      · subst hu
        rw [if_pos rfl]
        constructor
        · rintro ⟨⟨k, hk, huse⟩, hnot⟩
          obtain rfl : k = j := Option.some.inj (hk.symm.trans hj)
          exact absurd ⟨rfl, huse⟩ hnot
        · rintro ⟨k, hk, -⟩
          cases hk
      · rw [if_neg hu]
        exact ⟨fun h => h.1, fun h => ⟨h, fun hand => hu hand.1⟩⟩

theorem blockCount_remove {f g : Func} {id : InstrId} {i : Instr} (hg : f.remove id = .ok (i, g)) :
    g.blockCount = f.blockCount := by
  unfold remove at hg
  split at hg
  · cases hg
  · cases hg
    exact Array.size_modify

/-! ## Replacing a terminator -/

/-- The function `g` is `f` with another operation in slot `id`, and all its accounts agree. -/
structure OpChanged (f : Func) (id : InstrId) (op : Op) (g : Func) : Prop where
  name : g.name = f.name
  blocks : g.blocks = f.blocks
  slots : g.slotCount = f.slotCount
  placed : g.Placed
  indexed : g.Indexed
  instr : ∀ k, g.instr? k =
    if k = id then (f.instr? k).map fun i => { i with op := op } else f.instr? k

/-- Striking the values that were read and entering those that are read now keeps the index. -/
theorem opChanged_relink {f : Func} {id : InstrId} {i : Instr} (hp : f.Placed) (hx : f.Indexed)
    (hi : f.instr? id = some i) (op : Op) :
    OpChanged f id op (((f.setOp id op).unlink id i.op.uses).link id op.uses) where
  name := rfl
  blocks := rfl
  slots := slotCount_setOp f id op
  placed := ConstFlow.Placed.setOp hp id op
  instr := instr?_setOp f id op
  indexed := by
    refine ⟨?_, ?_, fun {d} hd u => ?_⟩
    · rw [size_users_link, size_users_unlink]
      exact hx.size.trans (slotCount_setOp f id op).symm
    · exact nodup_usersOf_link _ _ _ (nodup_usersOf_unlink _ _ _ hx.nodup)
    · have hlt : d < f.slotCount := by rwa [← slotCount_setOp f id op]
      rw [mem_usersOf_link, mem_usersOf_unlink, size_users_unlink]
      show (u ∈ f.usersOf d ∧ _) ∨ u = id ∧ d ∈ op.uses ∧ d < f.users.size ↔
        ∃ k, (f.setOp id op).instr? u = some k ∧ _
      rw [instr?_setOp, hx.mem hlt, hx.size]
      by_cases hu : u = id
      · subst hu
        simp [hi, hlt]
      · simp [hu]

/-- Ending a block in another operation changes one instruction, which was a terminator before. -/
theorem replaceTerminator_spec {f g : Func} {b : BlockId} {op old : Op} (hp : f.Placed)
    (hx : f.Indexed) (hg : f.replaceTerminator b op = .ok (old, g)) :
    ∃ blk id i, f.block? b = some blk ∧ blk.instrs.getLast? = some id ∧ f.instr? id = some i ∧
      old = i.op ∧ i.op.isTerminator = true ∧ op.isTerminator = true ∧ OpChanged f id op g := by
  unfold replaceTerminator at hg
  split at hg
  · next hterm =>
    split at hg
    · cases hg
    · next blk hblk =>
      split at hg
      · cases hg
      · next id hid =>
        split at hg
        · cases hg
        · next i hi =>
          split at hg
          · next hold =>
            cases hg
            exact ⟨blk, id, i, hblk, hid, hi, rfl, hold, hterm, opChanged_relink hp hx hi op⟩
          · cases hg
  · cases hg

end Func

end ConstFlow
