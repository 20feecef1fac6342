import ContractCompiler.Proofs.Lowering.Emission

/-!
# The code of operations

What the code of one construct does to a layout, given that its operands are on the stack or that
their code meets a specification.
-/

namespace ContractCompiler

/-! ## The operations of operators -/

namespace BinaryOperator

theorem uintOpcode?_spec {o : BinaryOperator} {code : Opcode} (h : o.uintOpcode? = some code) :
    code.isPlain = true ∧ code.params = [] ∧ code.pops.length = 2 ∧ code.pushes = [.uint64] := by
  cases o <;> cases h <;> decide

theorem bytesOpcode?_spec {o : BinaryOperator} {code : Opcode}
    (h : o.bytesOpcode? = some code) :
    code.isPlain = true ∧ code.params = [] ∧ code.pops.length = 2 ∧
      code.pushes = [if o.isComparison || o.isLogical then .uint64 else .bytes] := by
  cases o <;> cases h <;> decide

/-- The integer form of an operator suits operands that are no byte strings, and comparisons for
equality suit all. -/
theorem uintOpcode?_suits {o : BinaryOperator} {code : Opcode} {kl kr : StackType}
    (h : o.uintOpcode? = some code)
    (hk : (kl ≠ .bytes ∧ kr ≠ .bytes) ∨ o = .eq ∨ o = .ne) :
    code.mode ≠ .signature ∧ StackEffect.checkTypes code code.pops [kl, kr] 1 = .ok () := by
  cases o <;> cases h <;> refine ⟨by decide, ?_⟩ <;> cases kl <;> cases kr <;>
    first | rfl | (rcases hk with ⟨hl, hr⟩ | hk | hk <;> first | cases hk | contradiction)

/-- The byte-string form of an operator suits operands that are no integers. -/
theorem bytesOpcode?_suits {o : BinaryOperator} {code : Opcode} {kl kr : StackType}
    (h : o.bytesOpcode? = some code) (hl : kl ≠ .uint64) (hr : kr ≠ .uint64) :
    code.mode ≠ .signature ∧ StackEffect.checkTypes code code.pops [kl, kr] 1 = .ok () := by
  cases o <;> cases h <;> refine ⟨by decide, ?_⟩ <;> cases kl <;> cases kr <;>
    first | rfl | contradiction

/-- An operator that is not for integers only has a byte-string form. -/
theorem bytesOpcode?_isSome {o : BinaryOperator} (h : o.uintOpcode?.isSome)
    (hint : o.needsIntegers = false) : o.bytesOpcode?.isSome := by
  revert h hint
  cases o <;> decide

end BinaryOperator

namespace Lower

open LowerState

variable {G : Rigour} {S : Setting} {env : LowerEnv} {s : LowerState} {names : List String}
  {temps : List StackType} {cs : CheckState} (cs' : CheckState) {k kl kr : StackType}
  {post : Unit → LowerState → Prop}

/-- Integers are turned into byte strings. -/
theorem Ends.ready_itob (hs : s.Ready G S names (.uint64 :: temps) cs)
    (h : ∀ s', s.Writes S s' (plain [.itob]) → s'.Ready G S names (.bytes :: temps) cs →
      post () s') :
    (op₀ .itob).Ends G.faults env s post :=
  .ready_op [.uint64] [.bytes] hs rfl rfl rfl rfl (fun _ => ⟨by decide, rfl⟩) h

theorem Ends.ready_uintOperator {o : BinaryOperator}
    (hs : s.Ready G S names (kr :: kl :: temps) cs) (ho : o.uintOpcode?.isSome)
    (hk : (kl ≠ .bytes ∧ kr ≠ .bytes) ∨ o = .eq ∨ o = .ne)
    (h : ∀ s', s.Writes S s' (plain o.uintOpcode?.toList) →
      s'.Ready G S names (.uint64 :: temps) cs → post () s') :
    (uintOperator o).Ends G.faults env s post := by
  obtain ⟨code, hcode⟩ := Option.isSome_iff_exists.1 ho
  obtain ⟨hplain, hparams, hpops, hpushes⟩ := o.uintOpcode?_spec hcode
  unfold uintOperator
  rw [hcode] at h ⊢
  exact .ready_op [kr, kl] [.uint64] hs hplain (by rw [hparams]; rfl) hpops.symm
    (by rw [hpushes]; rfl) (fun _ => o.uintOpcode?_suits hcode hk) h

theorem Ends.ready_bytesOperator {o : BinaryOperator}
    (hs : s.Ready G S names (kr :: kl :: temps) cs) (ho : o.bytesOpcode?.isSome) (hl : kl ≠ .uint64)
    (hr : kr ≠ .uint64)
    (h : ∀ s', s.Writes S s' (plain o.bytesOpcode?.toList) →
      s'.Ready G S names ((if o.isComparison || o.isLogical then .uint64 else .bytes) :: temps) cs →
      post () s') :
    (bytesOperator o).Ends G.faults env s post := by
  obtain ⟨code, hcode⟩ := Option.isSome_iff_exists.1 ho
  obtain ⟨hplain, hparams, hpops, hpushes⟩ := o.bytesOpcode?_spec hcode
  unfold bytesOperator
  rw [hcode] at h ⊢
  exact .ready_op [kr, kl] [_] hs hplain (by rw [hparams]; rfl) hpops.symm
    (by rw [hpushes]; rfl) (fun _ => o.bytesOpcode?_suits hcode hl hr) h

/-- An operator takes its operands and leaves its result. If no operation is to be refused, the
operands are no byte strings where it is for integers only. -/
theorem Ends.ready_operator {o : BinaryOperator}
    (hs : s.Ready G S names (kr :: kl :: temps) cs) (ho : o.uintOpcode?.isSome)
    (hints : G.strict → o.needsIntegers = true → kl ≠ .bytes ∧ kr ≠ .bytes)
    (h : ∀ s', o.Takes kl kr → s.Writes S s' (plain (o.emitted kl kr)) →
      s'.Ready G S names (o.resultOf kl kr :: temps) cs → post () s') :
    (Lower.operator o).Ends G.faults env s post := by
  have hleft : s.builder.typeAt? 1 = some kl := hs.getElem? (Nat.succ_lt_succ (Nat.zero_lt_succ _))
  have hright : s.builder.typeAt? 0 = some kr := hs.getElem? (Nat.zero_lt_succ _)
  refine .bind (.builder ?_)
  simp only [hleft, hright, Option.getD_some]
  split
  case isTrue hnone =>
    refine .ready_uintOperator hs ho (.inl hnone) fun s' hw hl => h s' ⟨ho, ?_⟩ ?_ ?_
    · rintro (rfl | rfl)
      · exact absurd rfl hnone.1
      · exact absurd rfl hnone.2
    · rw [BinaryOperator.emitted, if_pos hnone]
      exact hw
    · rw [BinaryOperator.resultOf, if_pos hnone, ite_self]
      exact hl
  case isFalse hbytes =>
    split
    case isTrue hint =>
      exact .fail (hs.regime.lenient (fun hstrict => absurd (hints hstrict hint) hbytes) _ rfl)
    case isFalse hint =>
      have htakes : o.Takes kl kr := ⟨ho, fun _ => by simpa using hint⟩
      split
      case isTrue heq =>
        refine .ready_uintOperator hs ho (.inr heq.1) fun s' hw hl => h s' htakes ?_ ?_
        · rw [BinaryOperator.emitted, if_neg hbytes, if_pos heq]
          exact hw
        · have hcmp : (o.isComparison || o.isLogical) = true := by
            rcases heq.1 with rfl | rfl <;> rfl
          rw [BinaryOperator.resultOf, if_pos hcmp]
          exact hl
      case isFalse heq =>
        have hbytesOp := o.bytesOpcode?_isSome ho (by simpa using hint)
        have hemitted : o.emitted kl kr = (if kl = .uint64 then [.swap, .itob, .swap] else []) ++
            (if kr = .uint64 then [.itob] else []) ++ o.bytesOpcode?.toList := by
          rw [BinaryOperator.emitted, if_neg hbytes, if_neg heq]
        have hresult : o.resultOf kl kr =
            if o.isComparison || o.isLogical then .uint64 else .bytes := by
          rw [BinaryOperator.resultOf, if_neg hbytes]
        rw [hemitted, hresult] at h
        -- Integers among the operands are turned into byte strings, the left one first.
        split
        case isTrue hkl =>
          subst hkl
          refine .bind (.ready_swap hs fun s₁ hw₁ hs₁ => ?_)
          refine .bind (.ready_itob hs₁ fun s₂ hw₂ hs₂ => ?_)
          refine .bind (.ready_swap hs₂ fun s₃ hw₃ hs₃ => ?_)
          have hw := hw₁.trans (hw₂.trans hw₃)
          split
          case isTrue hkr =>
            subst hkr
            refine .bind (.ready_itob hs₃ fun s₄ hw₄ hs₄ => ?_)
            refine .ready_bytesOperator hs₄ hbytesOp (by decide) (by decide)
              fun s' hw' hl => h s' htakes ?_ hl
            rw [if_pos rfl, if_pos rfl]
            exact hw.trans (hw₄.trans hw')
          case isFalse hkr =>
            refine .ready_bytesOperator hs₃ hbytesOp (by decide) hkr fun s' hw' hl =>
              h s' htakes ?_ hl
            rw [if_pos rfl, if_neg hkr]
            exact hw.trans hw'
        case isFalse hkl =>
          split
          case isTrue hkr =>
            subst hkr
            refine .bind (.ready_itob hs fun s₁ hw₁ hs₁ => ?_)
            refine .ready_bytesOperator hs₁ hbytesOp hkl (by decide)
              fun s' hw' hl => h s' htakes ?_ hl
            rw [if_neg hkl, if_pos rfl]
            exact hw₁.trans hw'
          case isFalse hkr =>
            refine .ready_bytesOperator hs hbytesOp hkl hkr fun s' hw' hl => h s' htakes ?_ hl
            rw [if_neg hkl, if_neg hkr]
            exact hw'

/-! ## Other operations on values -/

theorem Ends.ready_not (hs : s.Ready G S names (k :: temps) cs)
    (hk : G.strict → k ≠ .bytes)
    (h : ∀ s', s.Writes S s' (plain [.logicNot]) → s'.Ready G S names (.uint64 :: temps) cs →
      post () s') :
    (unaryOperator .not).Ends G.faults env s post :=
  .ready_op [k] [.uint64] hs rfl rfl rfl rfl (suits_integer hk rfl (by decide)) h

theorem Ends.ready_complement
    (hs : s.Ready G S names (k :: temps) cs)
    (h : ∀ s', s.Writes S s' (plain (complementOps k)) →
      s'.Ready G S names ((if k = .bytes then .bytes else .uint64) :: temps) cs → post () s') :
    (unaryOperator .complement).Ends G.faults env s post := by
  refine .bind (.builder ?_)
  simp only [hs.top?, Option.some.injEq]
  split
  case isTrue hk =>
    subst hk
    exact .ready_op [.bytes] [.bytes] hs rfl rfl rfl rfl (fun _ => ⟨by decide, rfl⟩) h
  case isFalse hk =>
    rw [complementOps, if_neg hk, if_neg hk] at h
    exact .ready_op [k] [.uint64] hs rfl rfl rfl rfl
      (suits_integer (fun _ => hk) rfl (by decide)) h

/-- A hash of a value, if the algorithm is one. -/
theorem Ends.ready_hash {algorithm : Expr} {input : Lower Unit}
    (hs₀ : s.Ready G S names temps cs) (hsome : G.strict → (hashOpcode? algorithm).isSome)
    (h : input.Ends G.faults env s fun _ s₁ => ∃ k,
      s₁.Ready G S names (k :: temps) cs' ∧
      ∀ c s', hashOpcode? algorithm = some c → s₁.Writes S s' (plain (hashOps k c)) →
        s'.Ready G S names (.bytes :: temps) cs' → post () s') :
    (Lower.hash input algorithm).Ends G.faults env s post := by
  unfold Lower.hash
  cases hc : hashOpcode? algorithm with
  | none =>
    rw [hc] at hsome
    exact .fail (hs₀.regime.lenient (fun hstrict => nomatch hsome hstrict) _ rfl)
  | some c =>
    have hspec : c.isPlain = true ∧ c.params = [] ∧ c.pops = [.bytes] ∧ c.pushes = [.bytes] ∧
        c.mode ≠ .signature := by
      unfold hashOpcode? at hc
      split at hc <;> cases hc <;> decide
    obtain ⟨hplain, hparams, hpops, hpushes, hmode⟩ := hspec
    refine .bind (h.mono fun _ s₁ ⟨k, hs, hpost⟩ => .bind (.builder ?_))
    have hpost := fun s' => hpost c s' hc
    have hcode : ∀ {s : LowerState} {k : StackType}, s.Ready G S names (k :: temps) cs' →
        k ≠ .uint64 → (∀ s', s.Writes S s' (plain [c]) → s'.Ready G S names (.bytes :: temps) cs' → post () s') →
        (op₀ c).Ends G.faults env s post := by
      intro s k hs hk h
      refine .ready_op [k] [.bytes] hs hplain (by rw [hparams]; rfl) (by rw [hpops]; rfl)
        (by rw [hpushes]; rfl) (fun _ => ⟨hmode, ?_⟩) h
      rw [hpops]
      cases k with
      | uint64 => exact absurd rfl hk
      | _ => rfl
    simp only [hs.top?, Option.some.injEq]
    split
    case isTrue hk =>
      subst hk
      refine .bind (.ready_itob hs fun s₂ hw₂ hs₂ => ?_)
      exact hcode hs₂ (by decide) fun s' hw => hpost s' (hw₂.trans hw)
    case isFalse hk =>
      refine hcode hs hk fun s' hw => hpost s' ?_
      rw [hashOps, if_neg hk]
      exact hw

/-- A cast of a value to a type that there is code for. -/
theorem Ends.ready_cast {n : String} {span : Span} {operand : Lower Unit}
    (hs₀ : s.Ready G S names temps cs)
    (hsome : G.strict → ∃ target, Builtin.types.lookup? n = some target ∧ isCastable target)
    (h : operand.Ends G.faults env s fun _ s₁ => ∃ k,
      s₁.Ready G S names (k :: temps) cs' ∧
      ∀ target s', Builtin.types.lookup? n = some target → isCastable target →
        s₁.Writes S s' (plain (castOps target k)) →
        s'.Ready G S names (castResult target :: temps) cs' → post () s') :
    (Lower.cast (.var (.name n span)) operand).Ends G.faults env s post := by
  unfold Lower.cast
  simp only [Expr.asName?]
  cases htype : Builtin.types.lookup? n with
  | none =>
    refine .fail (hs₀.regime.lenient (fun hstrict => ?_) _ rfl)
    obtain ⟨target, htarget, -⟩ := hsome hstrict
    cases htype.symm.trans htarget
  | some target =>
    refine .bind (h.mono fun _ s₁ ⟨k, hs, hpost⟩ => .bind (.builder ?_))
    have hpost := fun s' => hpost target s' htype
    have hbtoi : ∀ {post : Unit → LowerState → Prop}, k = .bytes →
        (∀ s', s₁.Writes S s' (plain [.btoi]) → s'.Ready G S names (.uint64 :: temps) cs' →
          post () s') → (op₀ .btoi).Ends G.faults env s₁ post := by
      rintro post rfl h
      exact .ready_op [.bytes] [.uint64] hs rfl rfl rfl rfl (fun _ => ⟨by decide, rfl⟩) h
    simp only [hs.top?, Option.some.injEq]
    split
    case isTrue huint =>
      subst huint
      have hcast : isCastable .uint64 := .inl rfl
      split
      case isTrue hk =>
        refine hbtoi hk fun s' hw => hpost s' hcast ?_
        rw [castOps, if_neg (by decide), if_neg (by decide), if_pos hk]
        exact hw
      case isFalse hk =>
        refine .ready_retypeTop hs fun s' hw => hpost s' hcast ?_
        rw [castOps, if_neg (by decide), if_neg (by decide), if_neg hk]
        exact hw
    case isFalse huint =>
      split
      case isTrue hbytes =>
        subst hbytes
        have hcast : isCastable .bytes := .inr (.inl rfl)
        split
        case isTrue hk =>
          subst hk
          exact .ready_itob hs fun s' => hpost s' hcast
        case isFalse hk =>
          refine .ready_retypeTop hs fun s' hw => hpost s' hcast ?_
          rw [castOps, if_pos rfl, if_neg hk]
          exact hw
      case isFalse hbytes =>
        split
        case isTrue hany =>
          subst hany
          exact .ready_retypeTop hs fun s' hw => hpost s' (.inr (.inr (.inl rfl))) hw
        case isFalse hany =>
          split
          case isFalse henum =>
            refine .fail (hs₀.regime.lenient (fun hstrict => ?_) _ rfl)
            obtain ⟨target', htarget, hcast⟩ := hsome hstrict
            cases htype.symm.trans htarget
            rcases hcast with rfl | rfl | rfl | henum' <;> contradiction
          case isTrue henum =>
            have hcast : isCastable target := .inr (.inr (.inr henum))
            have hresult : castResult target = .uint64 := by
              rw [castResult, if_neg hbytes, if_neg hany]
            have hops : castOps target k = if k = .bytes then [.btoi] else [] := by
              rw [castOps, if_neg hbytes, if_neg hany]
            rw [hresult, hops] at hpost
            split
            case isTrue hk =>
              refine .bind (hbtoi hk fun s₂ hw₂ hs₂ => ?_)
              refine .ready_retypeTop hs₂ fun s' hw => hpost s' hcast ?_
              rw [if_pos hk]
              exact hw₂.trans hw
            case isFalse hk =>
              refine .ready_retypeTop hs fun s' hw => hpost s' hcast ?_
              rw [if_neg hk]
              exact hw

/-! ## Local variables -/

/-- Stores a value in the slot of a variable, and keeps it on the stack as well. -/
theorem Ends.ready_assign {n : String} {span : Span} {value : Lower Unit}
    (hs : s.Ready G S names temps cs) (hn : n ∈ names)
    (h : value.Ends G.faults env s fun _ s₁ => ∃ k, S.held k ∧ s₁.Ready G S names (k :: temps) cs' ∧
      ∀ s', temps.length + 2 + names.idxOf n ≤ maxImmediate →
        s₁.Writes S s' (plain [.dup] ++ replaceCode (temps.length + 2 + names.idxOf n)) →
        s'.Ready G S names (k :: temps) cs' → (k ≠ .bytes → s'.Tame n) → post () s') :
    (Lower.store (.var (.name n span)) value true).Ends G.faults env s post := by
  obtain ⟨slot, hslot, hpos⟩ := hs.slot_of_mem hn
  refine .bind (.slot? ?_)
  rw [hslot]
  refine .bind (h.mono fun _ s₁ ⟨k, hk, hs₁, hpost⟩ => .bind (.builder ?_))
  refine .bind (.ready_dup hs₁ fun s₂ hw₂ hs₂ => ?_)
  rw [hpos, hs₁.top?]
  refine .bind (.ready_distance hs₂ hn fun hmax => ?_)
  refine .bind (.ready_replaceSlot hs₂ hk hn hmax fun s₃ hw₃ hs₃ => ?_)
  refine .ready_noteStore hs₃ hk fun s' hw hs' htame =>
    hpost s' hmax (hw₂.trans (hw₃.silent hw)) hs' (htame hn)

/-- Moves a value into the slot of a variable. -/
theorem Ends.ready_store {n : String} {span : Span} {value : Lower Unit}
    (hs : s.Ready G S names temps cs) (hn : n ∈ names)
    (h : value.Ends G.faults env s fun _ s₁ => ∃ k, S.held k ∧ s₁.Ready G S names (k :: temps) cs' ∧
      ∀ s', temps.length + 1 + names.idxOf n ≤ maxImmediate →
        s₁.Writes S s' (replaceCode (temps.length + 1 + names.idxOf n)) →
        s'.Ready G S names temps cs' → (k ≠ .bytes → s'.Tame n) → post () s') :
    (Lower.store (.var (.name n span)) value false).Ends G.faults env s post := by
  obtain ⟨slot, hslot, hpos⟩ := hs.slot_of_mem hn
  refine .bind (.slot? ?_)
  rw [hslot]
  refine .bind (h.mono fun _ s₁ ⟨k, hk, hs₁, hpost⟩ => .bind (.builder ?_))
  rw [hpos, hs₁.top?]
  refine .bind (.ready_distance hs₁ hn fun hmax => ?_)
  refine .bind (.ready_replaceSlot hs₁ hk hn hmax fun s₂ hw₂ hs₂ => ?_)
  refine .ready_noteStore hs₂ hk fun s' hw hs' htame =>
    hpost s' hmax (hw₂.silent hw) hs' (htame hn)

/-- What is known of the value of a slot that is read: what the analysis noted, or else what was
stored there. -/
def readTypeOf (noted stored : Option StackType) : Option StackType :=
  match noted with
  | none | some .any => stored
  | some t => some t

theorem Ends.readType? {F : CodeFault → Prop} {offset : Nat} {slot : Slot}
    {post : Option StackType → LowerState → Prop}
    (h : post (readTypeOf (env.localType? offset) slot.type) s) :
    (Lower.readType? offset slot).Ends F env s post := by
  refine .bind (.read ?_)
  cases hnoted : env.localType? offset with
  | none =>
    rw [hnoted] at h
    exact h
  | some t =>
    rw [hnoted] at h
    cases t <;> exact h

/-- Reads a name: the slot of a variable, or a constant. -/
theorem Ends.ready_loadName {n place : String} {offset : Nat}
    (hs : s.Ready G S names temps cs)
    (hload : n ∉ names → constant? S.lower.entry n = none → G.faults (.cannotLoad place))
    (hlocal : ∀ k s', n ∈ names → temps.length + names.idxOf n ≤ maxImmediate → S.held k →
      (∀ κ, S.lower.localType? offset = some κ → κ ≠ .any → k = κ) →
      (S.lower.localType? offset = some .any → s.Tame n → k ≠ .bytes) →
      s.Writes S s' [.op .dig [.uint (UInt64.ofNat (temps.length + names.idxOf n))]] →
      s'.Ready G S names (k :: temps) cs → post () s')
    (hconstant : ∀ v s', n ∉ names → constant? S.lower.entry n = some v →
      s.Writes S s' [.op .pushint [.uint v]] → s'.Ready G S names (.uint64 :: temps) cs →
      post () s') :
    (Lower.loadName n offset place).Ends G.faults S.lower s post := by
  refine .bind (.slot? ?_)
  by_cases hn : n ∈ names
  · obtain ⟨slot, hslot, hpos⟩ := hs.slot_of_mem hn
    rw [hslot]
    dsimp only
    rw [hpos]
    refine .bind (.ready_distance hs hn fun hmax => ?_)
    refine .bind (.ready_dig hs hn hmax fun k s₁ hk hw₁ hs₁ => ?_)
    refine .bind (.readType? ?_)
    -- A slot that is known not to hold byte strings only is read as what is known of it.
    have htame : ∀ t, readTypeOf (S.lower.localType? offset) slot.type = t →
        S.lower.localType? offset = some .any → s.Tame n → ∃ k, t = some k ∧ k ≠ .bytes := by
      rintro t rfl hany ⟨slot', k', hslot', htype, hne⟩
      cases hslot.symm.trans hslot'
      exact ⟨k', by rw [hany]; exact htype, hne⟩
    cases hread : readTypeOf (S.lower.localType? offset) slot.type with
    | none =>
      refine .pure (hlocal k s₁ hn hmax hk (fun κ hκ hany => ?_) (fun hany hn => ?_) hw₁ hs₁)
      · rw [hκ] at hread
        cases κ <;> first | exact absurd rfl hany | cases hread
      · obtain ⟨_, heq, -⟩ := htame _ hread hany hn
        cases heq
    | some t =>
      have ht : S.held t := by
        unfold readTypeOf at hread
        split at hread
        case h_3 hnoted =>
          cases hread
          exact S.held_local offset _ hnoted
        all_goals exact hs.held n slot t hslot hread
      refine .ready_retypeTop hs₁ fun s' hw hs' =>
        hlocal t s' hn hmax ht (fun κ hκ hany => ?_) (fun hany hn => ?_) (hw₁.silent hw) hs'
      · rw [hκ] at hread
        cases κ <;> first | exact absurd rfl hany | exact (Option.some.inj hread).symm
      · obtain ⟨_, heq, hne⟩ := htame _ hread hany hn
        cases heq
        exact hne
  · rw [hs.slot_of_not_mem hn]
    dsimp only
    refine .bind (.read ?_)
    cases hc : constant? S.lower.entry n with
    | none => exact .fail (hload hn hc)
    | some v =>
      exact .ready_op [] [.uint64] hs rfl rfl rfl rfl (fun _ => ⟨by decide, rfl⟩) fun s' =>
        hconstant v s' hn hc

end Lower

end ContractCompiler
