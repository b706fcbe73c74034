import SsaForm.Proofs.Histories
import SsaForm.Proofs.Records

/-!
# SsaForm.Proofs.Readers — variables record who reads them

What a method's variables record about their readers is determined by its live instructions:

* every register argument belongs to the instruction that holds it, and its
  variable is in the table;
* a variable records exactly the arguments that read it, with the instructions that hold them;
* a variable lists exactly the phis that read it.

`Method.ReadersRecorded` says so, and `readersRecorded_after` proves it of every state that
mutators reach from an empty method, as long as setting an argument of a node has not failed
(`Call.spoilsNode`): that failure leaves the old argument behind, without an owner. The
invariant that carries the proof adds that instructions are well formed (`Method.Coherent`).
All changes of arguments are made of two, an instruction loses an operand (`Coherent.drop`)
or takes one (`Coherent.take`).
-/

namespace SsaForm

open Edit

namespace Insn

theorem mem_registers {i : Insn} {r : Register} : r ∈ i.registers ↔ .register r ∈ i.args := by
  cases i with
  | phi p => simp [registers, args]
  | node n =>
    simp only [registers, Node.registers, args, List.mem_filterMap]
    constructor
    · rintro ⟨b, hb, hr⟩
      cases b with
      | literal l => cases hr
      | register s =>
        cases hr
        exact hb
    · intro hr
      exact ⟨_, hr, rfl⟩

end Insn

namespace Method

variable {m m' : Method} {id : InsnId} {i : Insn}

/-! ## Who reads a variable -/

/-- The register is an argument of the live instruction `id`. -/
def Holds (m : Method) (id : InsnId) (r : Register) : Prop :=
  ∃ i, m.insn? id = some i ∧ r ∈ i.registers

/-- The live instruction `id` is a phi. -/
def IsPhi (m : Method) (id : InsnId) : Prop := ∃ p, m.insn? id = some (.phi p)

/-- The instance `a` is an argument of the live instruction `id` and reads `v` there. -/
def Reads (m : Method) (v : VarId) (a : OperandId) (id : InsnId) : Prop :=
  ∃ r, m.Holds id r ∧ r.id = a ∧ r.var = some v

/-- The live instruction `id` is a phi with an argument that reads `v`. -/
def Consumes (m : Method) (v : VarId) (id : InsnId) : Prop :=
  m.IsPhi id ∧ ∃ r, m.Holds id r ∧ r.var = some v

/-- Arguments belong where they are held, and the variables record exactly the arguments that read
them and exactly the phis among the readers. -/
structure ReadersRecorded (m : Method) : Prop where
  owned : ∀ id r, m.Holds id r → r.owner = some id
  known : ∀ id r, m.Holds id r → m.vars.Knows r.var
  uses : ∀ v x, m.vars.get? v = some x → x.UsesAre (m.Reads v)
  consumers : ∀ v x, m.vars.get? v = some x → x.ConsumersAre (m.Consumes v)

/-- The invariant of the mutators: instructions are well formed and their readings are recorded. -/
structure Coherent (m : Method) : Prop where
  formed : m.WellFormed
  readers : m.ReadersRecorded

theorem consumes_iff {v : VarId} : m.Consumes v id ↔ m.IsPhi id ∧ ∃ a, m.Reads v a id := by
  refine and_congr_right fun _ => ?_
  constructor
  · rintro ⟨r, hr, hv⟩
    exact ⟨r.id, r, hr, rfl, hv⟩
  · rintro ⟨a, r, hr, -, hv⟩
    exact ⟨r, hr, hv⟩

theorem holds_of_insn? {r : Register} (hi : m.insn? id = some i) :
    m.Holds id r ↔ r ∈ i.registers := by
  simp [Holds, hi]

theorem reads_of_insn? (hi : m.insn? id = some i) {v : VarId} {a : OperandId} :
    m.Reads v a id ↔ ∃ r ∈ i.registers, r.id = a ∧ r.var = some v := by
  simp [Reads, holds_of_insn? hi]

theorem isPhi_of_insn? (hi : m.insn? id = some i) : m.IsPhi id ↔ i.isPhi = true := by
  cases i <;> simp [IsPhi, hi, Insn.isPhi, Insn.phi?]

/-- Two methods that hold the same registers in the same kinds of instructions and record the same
readers are alike in this respect. -/
theorem ReadersRecorded.congr (h : m.ReadersRecorded)
    (hvars : VarTable.Same (fun x => (x.uses, x.consumers)) m.vars m'.vars)
    (hholds : ∀ k r, m'.Holds k r ↔ m.Holds k r)
    (hphi : ∀ k r, m.Holds k r → (m'.IsPhi k ↔ m.IsPhi k)) : m'.ReadersRecorded := by
  have hreads : ∀ v a k, m'.Reads v a k ↔ m.Reads v a k := by
    intro v a k
    exact exists_congr fun r => and_congr_left fun _ => hholds k r
  refine { owned := ?_, known := ?_, uses := ?_, consumers := ?_ }
  · intro k r hr
    exact h.owned k r ((hholds k r).1 hr)
  · intro k r hr
    exact hvars.knows_iff.2 (h.known k r ((hholds k r).1 hr))
  · intro v y hy
    rcases hvars.get? hy with ⟨x, hx, heq⟩
    exact (h.uses v x hx).congr (congrArg Prod.fst heq) (hreads v)
  · intro v y hy
    rcases hvars.get? hy with ⟨x, hx, heq⟩
    refine (h.consumers v x hx).congr (congrArg Prod.snd heq) fun k => ?_
    constructor
    · rintro ⟨hk, r, hr, hv⟩
      have hr' := (hholds k r).1 hr
      exact ⟨(hphi k r hr').1 hk, r, hr', hv⟩
    · rintro ⟨hk, r, hr, hv⟩
      exact ⟨(hphi k r hr).2 hk, r, (hholds k r).2 hr, hv⟩

/-! ## Changing one instruction -/

theorem holds_putInsn (hi : m.insn? id = some i) {s : Linked Insn} {k : InsnId} {r : Register} :
    (m.putInsn id s).Holds k r ↔ if id = k then r ∈ s.insn.registers else m.Holds k r := by
  simp only [Holds, insn?_putInsn hi]
  by_cases hk : id = k
  · simp [hk]
  · simp [hk]

theorem reads_putInsn_self (hi : m.insn? id = some i) {s : Linked Insn} {v : VarId}
    {a : OperandId} :
    (m.putInsn id s).Reads v a id ↔ ∃ r ∈ s.insn.registers, r.id = a ∧ r.var = some v :=
  reads_of_insn? (insn?_putInsn_self hi s)

theorem reads_putInsn_of_ne (hi : m.insn? id = some i) {s : Linked Insn} {v : VarId} {a : OperandId}
    {k : InsnId} (hk : k ≠ id) : (m.putInsn id s).Reads v a k ↔ m.Reads v a k := by
  simp [Reads, holds_putInsn hi, hk.symm]

theorem isPhi_putInsn (hi : m.insn? id = some i) {s : Linked Insn} (hkind : s.insn.isPhi = i.isPhi)
    {k : InsnId} : (m.putInsn id s).IsPhi k ↔ m.IsPhi k := by
  by_cases hk : id = k
  · subst hk
    rw [isPhi_of_insn? hi, isPhi_of_insn? (insn?_putInsn_self hi s), hkind]
  · simp [IsPhi, insn?_putInsn hi, hk]

/-- An instruction changes together with the records of one variable, if any. What reads another
variable stays; what the changed variable records has to be as the changed instruction says. -/
theorem Coherent.putInsn (h : m.Coherent) (hi : m.insn? id = some i) {i' : Insn} {w : Option VarId}
    {f : Variable → Variable} (hformed : i'.WellFormed id) (hkind : i'.isPhi = i.isPhi)
    (howned : ∀ r ∈ i'.registers, r.owner = some id ∧ m.vars.Knows r.var)
    (hother : ∀ r v, r.var = some v → w ≠ some v → (r ∈ i'.registers ↔ r ∈ i.registers))
    (hone : ∀ v x, w = some v → m.vars.get? v = some x →
      (f x).UsesAre ((m.putInsn id ⟨i', m.vars.onVar w f⟩).Reads v) ∧
        (f x).ConsumersAre ((m.putInsn id ⟨i', m.vars.onVar w f⟩).Consumes v)) :
    (m.putInsn id ⟨i', m.vars.onVar w f⟩).Coherent := by
  -- other variables are read where they were
  have hreads : ∀ v a k, w ≠ some v →
      ((m.putInsn id ⟨i', m.vars.onVar w f⟩).Reads v a k ↔ m.Reads v a k) := by
    intro v a k hv
    by_cases hk : k = id
    · subst hk
      rw [reads_putInsn_self hi, reads_of_insn? hi]
      refine exists_congr fun r => ?_
      constructor
      · rintro ⟨hr, ha, hrv⟩
        exact ⟨(hother r v hrv hv).1 hr, ha, hrv⟩
      · rintro ⟨hr, ha, hrv⟩
        exact ⟨(hother r v hrv hv).2 hr, ha, hrv⟩
    · exact reads_putInsn_of_ne hi hk
  -- what is held is an argument of the changed instruction, or was held before
  have hholds : ∀ k r, (m.putInsn id ⟨i', m.vars.onVar w f⟩).Holds k r →
      r.owner = some k ∧ m.vars.Knows r.var := by
    intro k r hr
    rw [holds_putInsn hi] at hr
    by_cases hk : id = k
    · rw [if_pos hk] at hr
      exact hk ▸ howned r hr
    · rw [if_neg hk] at hr
      exact ⟨h.readers.owned k r hr, h.readers.known k r hr⟩
  refine ⟨wellFormed_putInsn h.formed hi hformed, ?_⟩
  refine { owned := ?_, known := ?_, uses := ?_, consumers := ?_ }
  · intro k r hr
    exact (hholds k r hr).1
  · intro k r hr
    exact VarTable.knows_onVar.2 (hholds k r hr).2
  · intro v y hy
    rw [vars_putInsn, VarTable.get?_onVar, Option.map_eq_some_iff] at hy
    rcases hy with ⟨x, hx, rfl⟩
    by_cases hv : w = some v
    · rw [if_pos hv]
      exact (hone v x hv hx).1
    · rw [if_neg hv]
      exact (h.readers.uses v x hx).congr rfl fun a k => hreads v a k hv
  · intro v y hy
    rw [vars_putInsn, VarTable.get?_onVar, Option.map_eq_some_iff] at hy
    rcases hy with ⟨x, hx, rfl⟩
    by_cases hv : w = some v
    · rw [if_pos hv]
      exact (hone v x hv hx).2
    · rw [if_neg hv]
      refine (h.readers.consumers v x hx).congr rfl fun k => ?_
      rw [consumes_iff, consumes_iff, isPhi_putInsn hi hkind]
      exact and_congr_right fun _ => exists_congr fun a => hreads v a k hv

theorem reads_of_mem_args (hi : m.insn? id = some i) {b : Operand} (hb : b ∈ i.args) {v : VarId}
    (hv : b.var? = some v) : m.Reads v b.id id := by
  cases b with
  | literal l => cases hv
  | register r => exact ⟨r, (holds_of_insn? hi).2 (Insn.mem_registers.2 hb), rfl, hv⟩

/-- The readings of a variable lose an instance, which is read nowhere else. -/
theorem Coherent.reads_drop (h : m.Coherent) (hi : m.insn? id = some i) {i' : Insn} {t : VarTable}
    {old : Operand} (hold : old ∈ i.args)
    (hregs : ∀ r, r ∈ i'.registers ↔ r ∈ i.registers ∧ r.id ≠ old.id) {v : VarId} {x : Variable}
    (hv : old.var? = some v) (hx : m.vars.get? v = some x) (a : OperandId) (k : InsnId) :
    (m.putInsn id ⟨i', t⟩).Reads v a k ↔ m.Reads v a k ∧ a ≠ old.id := by
  by_cases hk : k = id
  · subst hk
    rw [reads_putInsn_self hi, reads_of_insn? hi]
    simp only [hregs]
    constructor
    · rintro ⟨r, ⟨hr, hne⟩, rfl, hrv⟩
      exact ⟨⟨r, hr, rfl, hrv⟩, hne⟩
    · rintro ⟨⟨r, hr, rfl, hrv⟩, hne⟩
      exact ⟨r, ⟨hr, hne⟩, rfl, hrv⟩
  · rw [reads_putInsn_of_ne hi hk]
    refine ⟨fun hr => ⟨hr, ?_⟩, And.left⟩
    rintro rfl
    exact hk ((h.readers.uses v x hx).unique hr (reads_of_mem_args hi hold hv))

/-- An instruction loses an operand. Its variable drops the use and, if the instruction is a phi,
looks at its consumers anew. -/
theorem Coherent.drop (h : m.Coherent) (hi : m.insn? id = some i) {i' : Insn} {old : Operand}
    {f : Variable → Variable} (hold : old ∈ i.args)
    (hargs : ∀ b, b ∈ i'.args ↔ b ∈ i.args ∧ b.id ≠ old.id) (hformed : i'.WellFormed id)
    (hkind : i'.isPhi = i.isPhi) (huses : ∀ x, (f x).uses = (x.dropUse old.id).uses)
    (hconsumers : ∀ x, (f x).consumers =
      if i.isPhi then (x.dropUse old.id).refreshConsumers.consumers else x.consumers) :
    (m.putInsn id ⟨i', m.vars.onVar old.var? f⟩).Coherent := by
  have hregs : ∀ r, r ∈ i'.registers ↔ r ∈ i.registers ∧ r.id ≠ old.id := by
    intro r
    rw [Insn.mem_registers, Insn.mem_registers, hargs]
    rfl
  apply h.putInsn hi hformed hkind
  · intro r hr
    have hr' : m.Holds id r := (holds_of_insn? hi).2 ((hregs r).1 hr).1
    exact ⟨h.readers.owned id r hr', h.readers.known id r hr'⟩
  · intro r v hv hne
    rw [hregs]
    refine ⟨And.left, fun hr => ⟨hr, fun heq => hne ?_⟩⟩
    -- the argument with the identity of the lost one is the lost one
    have hsame : Operand.register r = old :=
      List.inj_on_of_nodup_map (h.formed id i hi).distinct (Insn.mem_registers.1 hr) hold heq
    rw [← hsame]
    exact hv
  · intro v x hv hx
    have hu := h.readers.uses v x hx
    have hself : m.Reads v old.id id := reads_of_mem_args hi hold hv
    have hreads := h.reads_drop hi (t := m.vars.onVar old.var? f) hold hregs hv hx
    refine ⟨(hu.dropUse old.id).congr (huses x) hreads, ?_⟩
    have hc := h.readers.consumers v x hx
    have hconsumes : ∀ k, (m.putInsn id ⟨i', m.vars.onVar old.var? f⟩).Consumes v k ↔
        m.IsPhi k ∧ ∃ a, m.Reads v a k ∧ a ≠ old.id := by
      intro k
      rw [consumes_iff, isPhi_putInsn hi hkind]
      exact and_congr_right fun _ => exists_congr fun a => hreads a k
    -- a phi leaves the consumers if it reads the variable no more, a node was not among them
    cases hphi : i.isPhi with
    | true =>
      have hcx : (x.dropUse old.id).ConsumersAre (m.Consumes v) := hc.congr rfl fun _ => Iff.rfl
      refine (hcx.refreshConsumers (hu.dropUse old.id)).congr
        (by rw [hconsumers, hphi]; rfl) fun k => ?_
      rw [hconsumes, consumes_iff]
      constructor
      · rintro ⟨hk, a, hr, hne⟩
        exact ⟨⟨hk, a, hr⟩, a, hr, hne⟩
      · rintro ⟨⟨hk, -⟩, a, hr, hne⟩
        exact ⟨hk, a, hr, hne⟩
    | false =>
      refine hc.congr (by rw [hconsumers, hphi]; rfl) fun k => ?_
      rw [hconsumes, consumes_iff]
      refine and_congr_right fun hk => exists_congr fun a => and_iff_left_of_imp ?_
      rintro hr rfl
      -- no phi reads the variable through an instance that a node holds
      have hnode := (isPhi_of_insn? hi).1 (hu.unique hself hr ▸ hk)
      rw [hphi] at hnode
      cases hnode

/-- The readings of a variable gain an instance. -/
theorem reads_take (hi : m.insn? id = some i) {i' : Insn} {t : VarTable} {a : Operand}
    (hregs : ∀ r, r ∈ i'.registers ↔ r ∈ i.registers ∨ .register r = a) {v : VarId}
    (hv : a.var? = some v) (b : OperandId) (k : InsnId) :
    (m.putInsn id ⟨i', t⟩).Reads v b k ↔ m.Reads v b k ∨ b = a.id ∧ k = id := by
  by_cases hk : k = id
  · subst hk
    rw [reads_putInsn_self hi, reads_of_insn? hi]
    simp only [hregs]
    constructor
    · rintro ⟨r, hr | rfl, rfl, hrv⟩
      · exact Or.inl ⟨r, hr, rfl, hrv⟩
      · exact Or.inr ⟨rfl, trivial⟩
    · rintro (⟨r, hr, rfl, hrv⟩ | ⟨rfl, -⟩)
      · exact ⟨r, Or.inl hr, rfl, hrv⟩
      · cases a with
        | literal l => cases hv
        | register r => exact ⟨r, Or.inr rfl, rfl, hv⟩
  · rw [reads_putInsn_of_ne hi hk]
    refine ⟨Or.inl, fun hr => hr.resolve_right ?_⟩
    rintro ⟨-, rfl⟩
    exact hk rfl

/-- An instruction takes an operand whose instance is not recorded as a use. Its variable records
the use and, if the instruction is a phi, lists the consumer. -/
theorem Coherent.take (h : m.Coherent) (hi : m.insn? id = some i) {i' : Insn} {a : Operand}
    {f : Variable → Variable} (hargs : ∀ b, b ∈ i'.args ↔ b ∈ i.args ∨ b = a)
    (hformed : i'.WellFormed id) (hkind : i'.isPhi = i.isPhi)
    (howner : ∀ r, a = .register r → r.owner = some id) (hknown : m.vars.Knows a.var?)
    (hunused : ∀ v x, a.var? = some v → m.vars.get? v = some x → x.useSite a.id = none)
    (huses : ∀ x, (f x).uses = (x.recordUse ⟨a.id, some id⟩).uses)
    (hconsumers : ∀ x, (f x).consumers =
      if i.isPhi then (x.addConsumer id).consumers else x.consumers) :
    (m.putInsn id ⟨i', m.vars.onVar a.var? f⟩).Coherent := by
  have hregs : ∀ r, r ∈ i'.registers ↔ r ∈ i.registers ∨ .register r = a := by
    intro r
    rw [Insn.mem_registers, Insn.mem_registers, hargs]
  apply h.putInsn hi hformed hkind
  · intro r hr
    rcases (hregs r).1 hr with hr | rfl
    · have hr' : m.Holds id r := (holds_of_insn? hi).2 hr
      exact ⟨h.readers.owned id r hr', h.readers.known id r hr'⟩
    · exact ⟨howner r rfl, hknown⟩
  · intro r v hv hne
    rw [hregs]
    refine ⟨fun hr => hr.resolve_right ?_, Or.inl⟩
    rintro rfl
    exact hne hv
  · intro v x hv hx
    have hu := h.readers.uses v x hx
    have hnew : ∀ k, ¬ m.Reads v a.id k := hu.useSite_eq_none.1 (hunused v x hv hx)
    have hreads := reads_take hi (t := m.vars.onVar a.var? f) hregs hv
    refine ⟨(hu.recordUse hnew id).congr (huses x) hreads, ?_⟩
    have hc := h.readers.consumers v x hx
    have hconsumes : ∀ k, (m.putInsn id ⟨i', m.vars.onVar a.var? f⟩).Consumes v k ↔
        m.Consumes v k ∨ m.IsPhi k ∧ k = id := by
      intro k
      rw [consumes_iff, consumes_iff, isPhi_putInsn hi hkind]
      simp only [hreads, exists_or, exists_and_right, exists_eq, true_and]
      exact and_or_left
    -- a phi joins the consumers, a node does not
    cases hphi : i.isPhi with
    | true =>
      refine (hc.addConsumer id).congr (by rw [hconsumers, hphi]; rfl) fun k => ?_
      rw [hconsumes]
      refine or_congr_right (and_iff_right_of_imp ?_)
      rintro rfl
      exact (isPhi_of_insn? hi).2 hphi
    | false =>
      refine hc.congr (by rw [hconsumers, hphi]; rfl) fun k => ?_
      rw [hconsumes]
      refine or_iff_left ?_
      rintro ⟨hk, rfl⟩
      have hnode := (isPhi_of_insn? hi).1 hk
      rw [hphi] at hnode
      cases hnode

/-! ## Steps of a node -/

/-- The arguments of a node without the one at a position. -/
theorem mem_node_eraseIdx {n : Node} {k : Nat} {old : Operand} (h : (Insn.node n).WellFormed id)
    (hold : n.args[k]? = some old) (b : Operand) :
    b ∈ (Insn.node { n with args := n.args.eraseIdx k }).args ↔
      b ∈ (Insn.node n).args ∧ b.id ≠ old.id :=
  mem_eraseIdx_iff_key h.distinct hold

theorem Coherent.eraseArg (h : m.Coherent) {n : Node} (hn : m.insn? id = some (.node n)) {k : Nat}
    {old : Operand} (hold : n.args[k]? = some old) :
    (m.putInsn id ⟨.node { n with args := n.args.eraseIdx k },
      m.vars.onVar old.var? (·.dropUse old.id)⟩).Coherent := by
  have hformed := h.formed id _ hn
  exact h.drop hn (List.mem_of_getElem? hold) (mem_node_eraseIdx hformed hold)
    (Node.formedAt_eraseIdx (s := ⟨n, m.vars⟩) hformed k m.vars) rfl (fun _ => rfl) fun _ => rfl

/-- The variable of an argument is in the table. -/
theorem Coherent.knows_arg (h : m.Coherent) (hi : m.insn? id = some i) {b : Operand}
    (hb : b ∈ i.args) :
    m.vars.Knows b.var? := by
  cases b with
  | literal l => exact m.vars.knows_none
  | register r => exact h.readers.known id r ((holds_of_insn? hi).2 (Insn.mem_registers.2 hb))

theorem keepsNode_coherent_removeArgAt (k : Nat) : KeepsNode Coherent id (Node.removeArgAt k) := by
  intro m n h hn
  cases hold : n.args[k]? with
  | none =>
    rw [Node.removeArgAt_of_none hold]
    exact (putInsn_self hn).symm ▸ h
  | some old =>
    rw [Node.removeArgAt_of_known hold (h.knows_arg hn (List.mem_of_getElem? hold))]
    exact h.eraseArg hn hold

/-- What an operand that may be attached leaves: it belongs to its holder, it is
known and not recorded. -/
theorem Coherent.takeNode (h : m.Coherent) {n : Node} (hn : m.insn? id = some (.node n))
    {a : Operand} {l : List Operand} (hfree : a.Free m.vars)
    (hargs : ∀ b, b ∈ l ↔ b ∈ n.args ∨ b = a.ownedBy id) (hdistinct : (l.map Operand.id).Nodup) :
    (m.putInsn id ⟨.node { n with args := l },
      m.vars.onVar a.var? (·.recordUse ⟨a.id, some id⟩)⟩).Coherent := by
  have hformed : (Insn.node { n with args := l }).WellFormed id :=
    Insn.wellFormed_node.2 ⟨(h.formed id _ hn).id_eq, hdistinct⟩
  cases a with
  | literal c =>
    exact h.take (a := .literal c) hn hargs hformed rfl (fun _ hr => nomatch hr) m.vars.knows_none
      (fun _ _ hv => nomatch hv) (fun _ => rfl) fun _ => rfl
  | register r =>
    refine h.take (a := .register (r.ownedBy id)) hn hargs hformed rfl ?_ hfree.known hfree.unused
      (fun _ => rfl) fun _ => rfl
    intro s hs
    cases hs
    rfl

theorem keepsNode_coherent_addArg (a : Operand) :
    KeepsNode Coherent id (atomically (Node.argAdded a)) := by
  intro m n h hn
  apply putNode_atomically h hn
  intro s hadd
  have hformed := Node.formedAt_addArg (h.formed id _ hn) hadd
  rcases Node.argAdded_eq_ok.1 hadd with ⟨-, hfree, rfl⟩
  have hid : n.id = id := (h.formed id _ hn).id_eq
  subst hid
  refine h.takeNode hn hfree ?_ hformed.distinct
  intro b
  rw [List.mem_append, List.mem_singleton]

/-- Setting an argument is losing the old operand and taking the new one, unless
it fails in between. -/
theorem Coherent.setNodeArg (h : m.Coherent) {n : Node} (hn : m.insn? id = some (.node n)) {k : Nat}
    {a : Operand} (hok : ∀ e, verdict (Node.setArg k a ⟨n, m.vars⟩) = .error e → ¬ e.OfRecords) :
    (m.putInsn id (finalState (Node.setArg k a ⟨n, m.vars⟩)).ofNode).Coherent := by
  have hid : n.id = id := (h.formed id _ hn).id_eq
  subst hid
  rcases Node.setArg_cases k a ⟨n, m.vars⟩ with
    ⟨e, heq⟩ | ⟨old, b, t, hold, hrep, -, ⟨e, he, heq⟩ | ⟨-, rfl, hfree, heq⟩⟩
  · rw [heq]
    exact (putInsn_self hn).symm ▸ h
  · refine absurd he (hok e ?_)
    rw [heq]
    rfl
  · -- the old operand leaves the node, and the new one takes its place
    have hdropped := h.eraseArg hn hold
    have hn' := insn?_putInsn_self hn ⟨.node { n with args := n.args.eraseIdx k },
      m.vars.onVar old.var? (·.dropUse old.id)⟩
    have hset := Node.formedAt_set (h.formed n.id _ hn) hrep m.vars
    have htaken := hdropped.takeNode hn' hfree (fun c => mem_set_iff_mem_eraseIdx hold)
      hset.distinct
    rw [putInsn_putInsn] at htaken
    rw [heq]
    exact htaken

/-! ## Steps of a phi -/

theorem args_eraseIdx (p : Phi) (k : Nat) :
    (Insn.phi { p with bindings := p.bindings.eraseIdx k }).args =
      (Insn.phi p).args.eraseIdx k := by
  simp only [Insn.args, Phi.args, List.eraseIdx_map]

/-- The arguments of a phi without the one of a binding. -/
theorem mem_phi_eraseIdx {p : Phi} {k : Nat} {old : Binding} (h : (Insn.phi p).WellFormed id)
    (hold : p.bindings[k]? = some old) (b : Operand) :
    b ∈ (Insn.phi { p with bindings := p.bindings.eraseIdx k }).args ↔
      b ∈ (Insn.phi p).args ∧ b.id ≠ old.arg.id := by
  have harg : (Insn.phi p).args[k]? = some (.register old.arg) := by
    simp [Insn.args, Phi.args, hold]
  rw [args_eraseIdx]
  exact mem_eraseIdx_iff_key h.distinct harg

/-- A phi loses a binding. -/
theorem Coherent.eraseBinding (h : m.Coherent) {p : Phi} (hp : m.insn? id = some (.phi p)) {k : Nat}
    {old : Binding} (hold : p.bindings[k]? = some old) :
    (m.putInsn id ⟨.phi { p with bindings := p.bindings.eraseIdx k },
      m.vars.onVar old.arg.var fun x => (x.dropUse old.arg.id).refreshConsumers⟩).Coherent := by
  have hformed := h.formed id _ hp
  have harg : Operand.register old.arg ∈ (Insn.phi p).args :=
    List.mem_map.2 ⟨old.arg, List.mem_map.2 ⟨old, List.mem_of_getElem? hold, rfl⟩, rfl⟩
  exact h.drop (f := fun x => (x.dropUse old.arg.id).refreshConsumers) hp harg
    (mem_phi_eraseIdx hformed hold)
    (Phi.formedAt_eraseIdx (s := ⟨p, m.vars⟩) hformed k m.vars) rfl (fun _ => rfl) fun _ => rfl

/-- In range, a binding is removed together with what its variable records of it. -/
theorem Coherent.removeArgAt_of_getElem? (h : m.Coherent) {p : Phi}
    (hp : m.insn? id = some (.phi p)) {k : Nat} {b : Binding} (hb : p.bindings[k]? = some b) :
    Phi.removeArgAt k ⟨p, m.vars⟩ = .ok b.arg.detached
      ⟨{ p with bindings := p.bindings.eraseIdx k },
        m.vars.onVar b.arg.var fun x => (x.dropUse b.arg.id).refreshConsumers⟩ := by
  have hheld : b.arg ∈ p.args := List.mem_map.2 ⟨b, List.mem_of_getElem? hb, rfl⟩
  have hknown := h.readers.known id b.arg ((holds_of_insn? hp).2 hheld)
  rw [Phi.removeArgAt_of_known hb hknown, VarTable.onVar_onVar]

theorem keepsPhi_coherent_removeArgAt (k : Nat) : KeepsPhi Coherent id (Phi.removeArgAt k) := by
  intro m p h hp
  cases hold : p.bindings[k]? with
  | none =>
    rw [Phi.removeArgAt_of_none hold]
    exact (putInsn_self hp).symm ▸ h
  | some old =>
    rw [h.removeArgAt_of_getElem? hp hold]
    exact h.eraseBinding hp hold

theorem mem_args_insertIdx {p : Phi} {k : Nat} {r : Register} {pred : BlockId}
    (hk : k ≤ p.bindings.length) (b : Operand) :
    b ∈ (Insn.phi { p with bindings := p.bindings.insertIdx k ⟨r, pred⟩ }).args ↔
      b ∈ (Insn.phi p).args ∨ b = .register r := by
  simp only [Insn.args, Phi.args, List.map_map, List.map_insertIdx]
  rw [List.mem_insertIdx (by simpa using hk), or_comm]

/-- A phi takes a binding. -/
theorem Coherent.insertBinding (h : m.Coherent) {p : Phi} (hp : m.insn? id = some (.phi p))
    {k : Nat} {r : Register} {pred : BlockId} (hk : k ≤ p.bindings.length) :
    (m.putInsn id
      (finalState (atomically (Phi.bindingInserted k r pred) ⟨p, m.vars⟩)).ofPhi).Coherent := by
  have hid : p.id = id := (h.formed id _ hp).id_eq
  subst hid
  apply putPhi_atomically h hp
  intro s hins
  have hformed := Phi.formedAt_insertBinding (h.formed p.id _ hp) hins
  rcases Phi.bindingInserted_eq_ok.1 hins with ⟨-, -, hfree, rfl⟩
  -- recording the use and listing the consumer are one change of the variable
  rw [VarTable.onVar_onVar]
  refine h.take (a := .register (r.ownedBy p.id)) hp (mem_args_insertIdx hk) hformed rfl ?_
    hfree.known hfree.unused (fun x => Variable.uses_addConsumer _ p.id)
    fun x => Variable.consumers_addConsumer_recordUse x _ p.id
  intro s hs
  cases hs
  rfl

/-! ## Renaming an argument -/

/-- An instruction that has lost the argument `r` takes it again under the name `v`. A copy of the
instance that reads `v` in another instruction would be in the way. -/
theorem Coherent.rename (h : m.Coherent) (hi : m.insn? id = some i) {r : Register} {v : VarId}
    {i' i'' : Insn} {t : VarTable} {f : Variable → Variable} (hr : r ∈ i.registers)
    (hv : v ∈ m.vars)
    (hheld : ∀ x j, m.vars.get? v = some x → x.useSite r.id = some j → r.owner = some j)
    (hdropped : (m.putInsn id ⟨i', t⟩).Coherent) (hgone : ∀ b ∈ i'.args, b.id ≠ r.id)
    (hvt : v ∈ t) (hargs : ∀ b, b ∈ i''.args ↔ b ∈ i'.args ∨ b = .register (r.naming v))
    (hformed : i''.WellFormed id) (hkind : i''.isPhi = i'.isPhi)
    (huses : ∀ x, (f x).uses = (x.recordUse ⟨r.id, r.owner⟩).uses)
    (hconsumers : ∀ x, (f x).consumers =
      if i'.isPhi then (x.addConsumer id).consumers else x.consumers) :
    (m.putInsn id ⟨i'', t.onVar (some v) f⟩).Coherent := by
  have howner : r.owner = some id := h.readers.owned id r ((holds_of_insn? hi).2 hr)
  have hi' := insn?_putInsn_self hi ⟨i', t⟩
  -- with the argument gone, nothing reads `v` through its instance
  have hnone : ∀ k, ¬ (m.putInsn id ⟨i', t⟩).Reads v r.id k := by
    intro k hk
    by_cases hself : k = id
    · rw [hself] at hk
      rcases (reads_of_insn? hi').1 hk with ⟨s, hs, hsr, -⟩
      exact hgone _ (Insn.mem_registers.1 hs) hsr
    · rw [reads_putInsn_of_ne hi hself] at hk
      rcases VarTable.exists_get? hv with ⟨x, hx⟩
      have hsite := hheld x k hx ((h.readers.uses v x hx).useSite_eq_some.2 hk)
      rw [howner, Option.some.injEq] at hsite
      exact hself hsite.symm
  have htaken := hdropped.take (a := .register (r.naming v)) hi' hargs hformed hkind ?_
    (VarTable.knows_some.2 hvt) ?_ (f := f) (fun x => howner ▸ huses x) hconsumers
  · rw [putInsn_putInsn] at htaken
    exact htaken
  · intro s hs
    cases hs
    exact howner
  · intro w x hw hx
    cases hw
    exact (hdropped.readers.uses v x hx).useSite_eq_none.2 hnone

/-- Renaming an argument to the variable that it reads already leaves the readers as they were. -/
theorem Coherent.rename_same (h : m.Coherent) {p : Phi} (hp : m.insn? id = some (.phi p))
    {r : Register} {v : VarId} (hr : r ∈ p.args) (hv : r.var = some v) :
    (m.putInsn id ⟨.phi p, m.vars.onVar (some v) fun x =>
      ((x.dropUse r.id).recordUse ⟨r.id, some id⟩).refreshConsumers.addConsumer id⟩).Coherent := by
  have hself : m.Reads v r.id id := (reads_of_insn? hp).2 ⟨r, hr, rfl, hv⟩
  apply h.putInsn hp (h.formed id _ hp) rfl
  · intro s hs
    have hs' : m.Holds id s := (holds_of_insn? hp).2 hs
    exact ⟨h.readers.owned id s hs', h.readers.known id s hs'⟩
  · intro s w _ _
    exact Iff.rfl
  · intro w x hw hx
    cases hw
    have hu := h.readers.uses v x hx
    have hc := h.readers.consumers v x hx
    have hreads : ∀ t a k, (m.putInsn id ⟨.phi p, t⟩).Reads v a k ↔ m.Reads v a k := by
      intro t a k
      by_cases hk : k = id
      · rw [hk, reads_putInsn_self hp, reads_of_insn? hp]
      · exact reads_putInsn_of_ne hp hk
    -- the use is dropped and recorded again
    have hu' := (hu.dropUse r.id).recordUse (fun _ hk => hk.2 rfl) id
    have hback : ∀ a k, (m.Reads v a k ∧ a ≠ r.id) ∨ a = r.id ∧ k = id ↔ m.Reads v a k := by
      intro a k
      constructor
      · rintro (⟨hk, -⟩ | ⟨rfl, rfl⟩)
        · exact hk
        · exact hself
      · intro hk
        by_cases ha : a = r.id
        · exact Or.inr ⟨ha, hu.unique hk (ha ▸ hself)⟩
        · exact Or.inl ⟨hk, ha⟩
    have hc' : ((x.dropUse r.id).recordUse ⟨r.id, some id⟩).ConsumersAre (m.Consumes v) :=
      hc.congr rfl fun _ => Iff.rfl
    refine ⟨hu'.congr (Variable.uses_addConsumer _ id) fun a k => ?_, ?_⟩
    · rw [hreads, hback]
    · refine ((hc'.refreshConsumers hu').addConsumer id).congr rfl fun k => ?_
      simp only [consumes_iff, hreads, hback, isPhi_putInsn hp (s := ⟨.phi p, _⟩) rfl]
      constructor
      · rintro ⟨hk, hex⟩
        exact Or.inl ⟨⟨hk, hex⟩, hex⟩
      · rintro (⟨hk, -⟩ | rfl)
        · exact hk
        · exact ⟨⟨p, hp⟩, r.id, hself⟩

theorem Coherent.attachVar_node (h : m.Coherent) {n : Node} (hn : m.insn? id = some (.node n))
    (k : Nat) (v : VarId) :
    (m.putInsn id (finalState (atomically (Insn.varAttached k v) ⟨.node n, m.vars⟩))).Coherent := by
  apply putInsn_atomically h hn
  intro s hok
  have hformed := Insn.wellFormed_attachVar (h.formed id _ hn) hok
  rcases Insn.varAttached_node_eq_ok.1 hok with ⟨r, t, hr, hmove, rfl⟩
  rcases Insn.readerMoved_eq_ok.1 hmove with ⟨hv, -, hheld, rfl⟩
  exact h.rename hn (Insn.mem_registers.2 (List.mem_of_getElem? hr)) hv hheld (h.eraseArg hn hr)
    (fun b hb => ((mem_node_eraseIdx (h.formed id _ hn) hr b).1 hb).2) (VarTable.mem_onVar.2 hv)
    (fun c => mem_set_iff_mem_eraseIdx hr) hformed rfl (fun _ => rfl) fun _ => rfl

theorem Coherent.attachVar_phi (h : m.Coherent) {p : Phi} (hp : m.insn? id = some (.phi p))
    (k : Nat) (v : VarId) :
    (m.putInsn id (finalState (atomically (Insn.varAttached k v) ⟨.phi p, m.vars⟩))).Coherent := by
  apply putInsn_atomically h hp
  intro s hok
  have hid : p.id = id := (h.formed id _ hp).id_eq
  subst hid
  have hformed := Insn.wellFormed_attachVar (h.formed p.id _ hp) hok
  rcases Insn.varAttached_phi_eq_ok.1 hok with ⟨b, t, hb, hmove, rfl⟩
  rcases Insn.readerMoved_eq_ok.1 hmove with ⟨hv, -, hheld, rfl⟩
  have hr : b.arg ∈ p.args := List.mem_map.2 ⟨b, List.mem_of_getElem? hb, rfl⟩
  have howner := h.readers.owned p.id b.arg ((holds_of_insn? hp).2 hr)
  by_cases hsame : b.arg.var = some v
  · -- all four changes are of one variable, and the argument stays as it is
    have hnaming : b.arg.naming v = b.arg := by
      rw [Register.naming, ← hsame]
    have hset : p.bindings.set k b = p.bindings := by
      rw [List.getElem?_eq_some_iff] at hb
      rcases hb with ⟨hlt, rfl⟩
      exact List.set_getElem_self hlt
    rw [hnaming, hset, hsame, howner]
    simp only [VarTable.onVar_onVar]
    exact h.rename_same hp hr hsame
  · -- the changes of the former variable are made before those of the new one
    have hdropped := h.eraseBinding hp hb
    rw [VarTable.onVar_comm (Ne.symm hsame), VarTable.onVar_onVar, VarTable.onVar_onVar]
    have harg : (Insn.phi p).args[k]? = some (.register b.arg) := by
      simp [Insn.args, Phi.args, hb]
    refine h.rename hp hr hv hheld hdropped ?_ (VarTable.mem_onVar.2 hv) ?_ hformed rfl
      (fun x => Variable.uses_addConsumer _ p.id)
      fun x => Variable.consumers_addConsumer_recordUse x _ p.id
    · intro c hc
      rw [args_eraseIdx] at hc
      exact ((mem_eraseIdx_iff_key (h.formed p.id _ hp).distinct harg).1 hc).2
    · intro c
      rw [args_eraseIdx, ← mem_set_iff_mem_eraseIdx harg]
      simp only [Insn.args, Phi.args, List.map_set]

/-! ## The mutators -/

theorem Coherent.congr (h : m.Coherent) (hformed : m'.WellFormed)
    (hvars : VarTable.Same (fun x => (x.uses, x.consumers)) m.vars m'.vars)
    (hholds : ∀ k r, m'.Holds k r ↔ m.Holds k r)
    (hphi : ∀ k r, m.Holds k r → (m'.IsPhi k ↔ m.IsPhi k)) : m'.Coherent :=
  ⟨hformed, h.readers.congr hvars hholds hphi⟩

/-- A new instruction without arguments reads nothing. -/
theorem Coherent.grown (h : m.Coherent) (hi : i.WellFormed ⟨m.slots.length⟩)
    (hnone : i.registers = []) :
    (m.grown i).Coherent := by
  -- nothing was held at the position that the instruction takes
  have hfree : ∀ r, ¬ m.Holds ⟨m.slots.length⟩ r := by
    rintro r ⟨j, hj, -⟩
    rw [insn?_length] at hj
    cases hj
  refine h.congr (wellFormed_grown h.formed hi) (VarTable.Same.refl _) ?_ ?_
  · intro k r
    by_cases hk : k = ⟨m.slots.length⟩
    · subst hk
      refine iff_of_false ?_ (hfree r)
      rintro ⟨j, hj, hr⟩
      rw [insn?_grown, if_pos rfl, Option.some.injEq] at hj
      rw [← hj, hnone] at hr
      cases hr
    · simp [Holds, insn?_grown, hk]
  · intro k r hr
    have hk : k ≠ ⟨m.slots.length⟩ := by
      rintro rfl
      exact hfree r hr
    simp [IsPhi, insn?_grown, hk]

/-- A phi without arguments may go, whatever happens to definitions. -/
theorem Coherent.without (h : m.Coherent) {p : Phi} (hp : m.insn? id = some (.phi p))
    (hnone : p.bindings = []) {t : VarTable}
    (hvars : VarTable.Same (fun x => (x.uses, x.consumers)) m.vars t) :
    ({ m.without id with vars := t } : Method).Coherent := by
  have hfree : ∀ r, ¬ m.Holds id r := by
    intro r hr
    have hr' : r ∈ p.args := (holds_of_insn? hp).1 hr
    rw [Phi.args, hnone] at hr'
    cases hr'
  have hfind : ∀ k, k ≠ id → ({ m.without id with vars := t } : Method).insn? k = m.insn? k := by
    intro k hk
    exact (insn?_without m id k).trans (if_neg hk)
  refine h.congr (wellFormed_without h.formed id) hvars ?_ ?_
  · intro k r
    by_cases hk : k = id
    · subst hk
      refine iff_of_false ?_ (hfree r)
      rintro ⟨j, hj, -⟩
      rw [show ({ m.without k with vars := t } : Method).insn? k = (m.without k).insn? k from rfl,
        insn?_without, if_pos rfl] at hj
      cases hj
    · simp only [Holds, hfind k hk]
  · intro k r hr
    have hk : k ≠ id := by
      rintro rfl
      exact hfree r hr
    simp only [IsPhi, hfind k hk]

/-- Only the result of an instruction changes. -/
theorem Coherent.sameArgs (h : m.Coherent) (hi : m.insn? id = some i) {s : Linked Insn}
    (hformed : s.insn.WellFormed id) (hkind : s.insn.isPhi = i.isPhi)
    (hregs : s.insn.registers = i.registers)
    (hvars : VarTable.Same (fun x => (x.uses, x.consumers)) m.vars s.vars) :
    (m.putInsn id s).Coherent := by
  refine h.congr (wellFormed_putInsn h.formed hi hformed) hvars ?_ fun k _ _ =>
    isPhi_putInsn hi hkind
  intro k r
  rw [holds_putInsn hi, hregs]
  by_cases hk : id = k
  · rw [if_pos hk, ← hk, holds_of_insn? hi]
  · rw [if_neg hk]

/-- A new variable is read by nothing. -/
theorem Coherent.newVar (h : m.Coherent) (reg version : Nat) :
    ({ m with vars := (m.vars.alloc reg version).2 } : Method).Coherent := by
  -- what is read is in the table, and the next identity is not
  have hunread : ∀ a k, ¬ m.Reads ⟨m.vars.vars.length⟩ a k := by
    rintro a k ⟨r, hr, -, hv⟩
    exact m.vars.not_mem_next (h.readers.known k r hr _ hv)
  refine ⟨h.formed, { owned := h.readers.owned, known := ?_, uses := ?_, consumers := ?_ }⟩
  · intro k r hr w hw
    exact VarTable.mem_alloc (h.readers.known k r hr w hw) reg version
  · intro v x hx
    rw [VarTable.get?_alloc] at hx
    by_cases hv : v = ⟨m.vars.vars.length⟩
    · rw [if_pos hv, Option.some.injEq] at hx
      subst hv hx
      refine ⟨List.nodup_nil, fun s => iff_of_false List.not_mem_nil ?_⟩
      rintro ⟨k, -, hk⟩
      exact hunread _ k hk
    · rw [if_neg hv] at hx
      exact h.readers.uses v x hx
  · intro v x hx
    rw [VarTable.get?_alloc] at hx
    by_cases hv : v = ⟨m.vars.vars.length⟩
    · rw [if_pos hv, Option.some.injEq] at hx
      subst hv hx
      refine ⟨List.nodup_nil, fun k => iff_of_false List.not_mem_nil ?_⟩
      rintro ⟨-, r, hr, hrv⟩
      exact hunread r.id k ⟨r, hr, rfl, hrv⟩
    · rw [if_neg hv] at hx
      exact h.readers.consumers v x hx

theorem same_readers_define (t : VarTable) (v : Option VarId) (s : Site) :
    VarTable.Same (fun x => (x.uses, x.consumers)) t (t.onVar v (·.define s)) := by
  refine VarTable.same_onVar (fun x => ?_) t v
  rfl

theorem same_readers_undefine (t : VarTable) (v : Option VarId) (a : OperandId) :
    VarTable.Same (fun x => (x.uses, x.consumers)) t (t.onVar v (·.undefine a)) := by
  refine VarTable.same_onVar (fun x => ?_) t v
  rw [Variable.undefine_eq]

theorem same_readers_forget (t : VarTable) (o : Option Register) :
    VarTable.Same (fun x => (x.uses, x.consumers)) t (t.forget o) := by
  cases o with
  | none => exact VarTable.Same.refl t
  | some r => exact same_readers_undefine t r.var r.id

theorem coherent_keptBySteps : KeptBySteps Coherent where
  newVar reg version m h := h.newVar reg version
  newNode op m h := h.grown (wellFormed_node_empty op _) rfl
  newPhi reg result m h := h.grown (wellFormed_ofResult reg result _) rfl
  addArg id a := keepsNode_coherent_addArg a
  removeArg id k := keepsNode_coherent_removeArgAt k
  insertBinding id m p k r pred h hp hk := h.insertBinding hp hk
  removeBinding id k := keepsPhi_coherent_removeArgAt k
  attachVar id k v := by
    apply keeps_editInsn
    intro m i h hi
    cases i with
    | node n => exact h.attachVar_node hi k v
    | phi p => exact h.attachVar_phi hi k v
  takePhi id m p h hp hnone := by
    rcases finalState_takePhi hp with ⟨t, heq, ht⟩
    rw [heq]
    apply h.without hp hnone
    rcases ht with ⟨-, rfl⟩ | ⟨-, rfl⟩
    · exact VarTable.Same.refl _
    · exact same_readers_undefine _ _ _

theorem keeps_coherent_setResult (id : InsnId) (r : Register) :
    Keeps Coherent (setResult id r) := by
  rw [setResult, Insn.setResult, Node.setResult_eq]
  refine keeps_verified (keeps_editInsn_edit ?_ (keepsPhi_ask _))
  intro m n h hn
  apply putNode_atomically h hn
  intro s hok
  rcases Node.resultSet_eq_ok.1 hok with ⟨-, -, rfl⟩
  rcases Insn.wellFormed_node.1 (h.formed id _ hn) with ⟨hid, hdistinct⟩
  exact h.sameArgs hn (Insn.wellFormed_node.2 ⟨hid, hdistinct⟩) rfl rfl
    ((same_readers_forget _ _).trans (same_readers_define _ _ _))

theorem keeps_coherent_assignResult (id : InsnId) (v : VarId) :
    Keeps Coherent (assignResult id v) := by
  rw [assignResult, Insn.assignResult_eq]
  apply keeps_verified
  apply keeps_editInsn
  intro m i h hi
  apply putInsn_atomically h hi
  intro s hok
  have hformed := Insn.wellFormed_assignResult (h.formed id i hi) hok
  rcases Insn.resultAssigned_eq_ok.1 hok with ⟨-, r, -, -, rfl⟩
  cases i with
  | node n => exact h.sameArgs hi hformed rfl rfl (same_readers_define _ _ _)
  | phi p => exact h.sameArgs hi hformed rfl rfl (same_readers_define _ _ _)

/-- A call that sets an argument of a node, and does not spoil it, has not failed
over the records. -/
theorem not_ofRecords_of_setsNodeArg {c : Call} (hc : c.spoilsNode m = false)
    (hsets : c.setsNodeArg m = true) {e : Fault} (hverdict : c.verdict m = .error e) :
    ¬ e.OfRecords := by
  intro hrecords
  rw [Call.spoilsNode, hsets, Call.fails_of_ofRecords hverdict hrecords] at hc
  cases hc

theorem Coherent.setArg (h : m.Coherent) {c : Call} (hc : c.spoilsNode m = false) {k : Nat}
    {a : Operand} (hset : c.mutation = .setArg id k a) :
    (finalState (setArg id k a m)).Coherent := by
  rw [Method.setArg, finalState_verified]
  apply editInsn_cases h
  intro i hi
  cases i with
  | phi p => exact (putInsn_self hi).symm ▸ h
  | node n =>
    rw [Insn.setArg, Insn.finalState_edit_node]
    have hsets : c.setsNodeArg m = true := by
      simp [Call.setsNodeArg, hset, hi, Insn.isNode, Insn.node?]
    refine h.setNodeArg hi fun e he => not_ofRecords_of_setsNodeArg hc hsets ?_
    -- the fault of the node is the verdict of the call
    have hedit : Edit.verdict (editInsn id (Insn.setArg k a) m) = .error e := by
      rw [verdict_editInsn hi, Insn.setArg, Insn.verdict_edit_node, he]
    rw [Call.verdict_eq, Call.edit, hset, Mutation.onMethod, verdict_map, Method.setArg,
      verdict_verified_of_error hedit]
    rfl

theorem Coherent.replaceArg (h : m.Coherent) {c : Call} (hc : c.spoilsNode m = false)
    {old new : Operand} (hreplace : c.mutation = .replaceArg id old new) :
    (finalState (replaceArg id old new m)).Coherent := by
  refine coherent_keptBySteps.replaceArg_cases h fun n hn => ?_
  have hsets : c.setsNodeArg m = true := by
    simp [Call.setsNodeArg, hreplace, hn, Insn.isNode, Insn.node?]
  have happly := Node.replaceArg_apply old.id new ⟨n, m.vars⟩
  cases hk : n.argIndex old.id with
  | none =>
    simp only [hk] at happly
    rw [happly]
    exact (putInsn_self hn).symm ▸ h
  | some k =>
    simp only [hk] at happly
    rw [happly, finalState_map]
    refine h.setNodeArg hn fun e he => not_ofRecords_of_setsNodeArg hc hsets ?_
    have hedit : Edit.verdict (editInsn id (Insn.replaceArg old new) m) = .error e := by
      rw [verdict_editInsn hn]
      unfold Insn.replaceArg
      rw [Insn.verdict_edit_node, happly, verdict_map, he]
      rfl
    rw [Call.verdict_eq, Call.edit, hreplace, Mutation.onMethod, verdict_map, Method.replaceArg,
      verdict_verified_of_error hedit]
    rfl

/-- Every call keeps the invariant, unless it fails to set an argument of a node. -/
theorem Coherent.next (h : m.Coherent) {c : Call} (hc : c.spoilsNode m = false) :
    (c.next m).Coherent := by
  refine coherent_keptBySteps.keeps_next h ?_ ?_ ?_ ?_ ?_
  · intro checks _
    exact h.congr h.formed (VarTable.Same.refl _) (fun _ _ => Iff.rfl) fun _ _ _ => Iff.rfl
  · intro id k a hset
    exact h.setArg hc hset
  · intro id old new hreplace
    exact h.replaceArg hc hreplace
  · intro id r _
    exact keeps_coherent_setResult id r m h
  · intro id v _
    exact keeps_coherent_assignResult id v m h

theorem coherent_empty (checks : Checks) : ({ checks := checks } : Method).Coherent := by
  have hnone : ∀ id r, ¬ ({ checks := checks } : Method).Holds id r := by
    rintro id r ⟨i, hi, -⟩
    cases hi
  refine ⟨?_, { owned := ?_, known := ?_, uses := ?_, consumers := ?_ }⟩
  · intro id i hi
    cases hi
  · intro id r hr
    exact absurd hr (hnone id r)
  · intro id r hr
    exact absurd hr (hnone id r)
  · intro v x hx
    cases hx
  · intro v x hx
    cases hx

/-- **Readings are recorded.** Whatever calls are made on an empty method, with whatever operands,
and however they end: unless setting an argument of a node has failed, arguments belong where they
are held and the variables record exactly who reads them. -/
theorem readersRecorded_after {checks : Checks} {history : List Call}
    (h : Along (fun m c => c.spoilsNode m = false) { checks := checks } history) :
    (({ checks := checks } : Method).after history).ReadersRecorded := by
  have hcoherent : (({ checks := checks } : Method).after history).Coherent := by
    refine invariant_after (G := fun m c => c.spoilsNode m = false) ?_ (coherent_empty checks) h
    intro m c hm hc
    exact hm.next hc
  exact hcoherent.readers

/-- A phi takes an argument, which is given a variable, and refuses another one
from the same predecessor. -/
theorem readersRecorded_after_refusal :
    (({} : Method).after [⟨.newVar 0 0, {}⟩, ⟨.newPhi 0, {}⟩, ⟨.bindPhi ⟨0⟩ ⟨7⟩, ⟨1⟩⟩,
      ⟨.attachVar ⟨0⟩ 0 ⟨0⟩, {}⟩,
      ⟨.bindPhi ⟨0⟩ ⟨7⟩, ⟨2⟩⟩]).ReadersRecorded :=
  readersRecorded_after (by decide)

end Method

end SsaForm
