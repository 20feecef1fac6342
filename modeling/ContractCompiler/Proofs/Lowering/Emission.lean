import ContractCompiler.Proofs.Lowering.Layout

/-!
# What code is emitted

The code of every construct as a relation between the construct and its code, with no builder and
no failure in sight. Every later result about emitted code is an induction over it.
-/

namespace ContractCompiler

/-- Operations without operands, as code. -/
def plain (codes : List Opcode) : List Instruction :=
  codes.map (.op · [])

/-! ## The operations of one construct -/

/-- The operations of an operator, by what is known of its operands. -/
def BinaryOperator.emitted (o : BinaryOperator) (left right : StackType) : List Opcode :=
  if left ≠ .bytes ∧ right ≠ .bytes then o.uintOpcode?.toList
  else if (o = .eq ∨ o = .ne) ∧
      ¬((left = .uint64 ∧ right = .bytes) ∨ (left = .bytes ∧ right = .uint64)) then
    o.uintOpcode?.toList
  else
    (if left = .uint64 then [.swap, .itob, .swap] else []) ++
      (if right = .uint64 then [.itob] else []) ++ o.bytesOpcode?.toList

/-- What is known of an operator's result. -/
def BinaryOperator.resultOf (o : BinaryOperator) (left right : StackType) : StackType :=
  if o.isComparison || o.isLogical then .uint64
  else if left ≠ .bytes ∧ right ≠ .bytes then .uint64
  else .bytes

/-- Whether an operator has a form for operands of two types. -/
def BinaryOperator.Takes (o : BinaryOperator) (left right : StackType) : Prop :=
  o.uintOpcode?.isSome ∧ (left = .bytes ∨ right = .bytes → o.needsIntegers = false)

/-- The operations of a complement, by what is known of its operand. -/
def complementOps (operand : StackType) : List Opcode :=
  [if operand = .bytes then .bytesNot else .bitNot]

/-- The operations of a cast, by what is known of its operand. -/
def castOps (target : TypeId) (operand : StackType) : List Opcode :=
  if target = .bytes then if operand = .uint64 then [.itob] else []
  else if target = .any then []
  else if operand = .bytes then [.btoi] else []

/-- What is known of the result of a cast. -/
def castResult (target : TypeId) : StackType :=
  if target = .bytes then .bytes else if target = .any then .any else .uint64

/-- Whether there is code for a cast to a type. -/
def isCastable (target : TypeId) : Prop :=
  target = .uint64 ∨ target = .bytes ∨ target = .any ∨ Builtin.types.isEnum target = true

/-- The operations of a hash after those of its input. -/
def hashOps (input : StackType) (algorithm : Opcode) : List Opcode :=
  (if input = .uint64 then [.itob] else []) ++ [algorithm]

/-- The code that drops `n` slots below the top. -/
def dropCode : Nat → List Instruction
  | 0 => []
  | 1 => plain [.swap, .pop]
  | n + 2 => .op .cover [.uint (UInt64.ofNat (n + 2))] :: List.replicate (n + 2) (.op .pop [])

/-! ## Reading places -/

/-- How a place is read: the index that is computed for it, if there is one, the operation with
its operands, and what is known of the value. -/
structure Reading where
  index : Option Expr
  code : Opcode
  operands : List Operand
  type : StackType

namespace Reading

/-- A place with an index, which is an operand if it is a small constant. -/
def indexed (i : Expr) (direct computed : Opcode) (before after : List Operand)
    (type : StackType) : Reading :=
  match i.constIndex? with
  | some k => ⟨none, direct, before ++ .uint k :: after, type⟩
  | none => ⟨some i, computed, before ++ after, type⟩

/-- How an element of an array of the transaction is read. -/
def element (a : LedgerArray) (i : Expr) : Reading :=
  indexed i .txna .txnas [.field a.elements] [] a.type

/-- How a place that is no name is read. -/
def ofLoad? (entry : Entry) : Load Expr → Option Reading
  | .named _ => none
  | .field code field type => some ⟨none, code, [.field field], type⟩
  | .account code i => some ⟨some i, code, [], .uint64⟩
  | .element a i => some (element a i)
  | .scratch i => some (indexed i .load .loads [] [] .any)
  | .group i f => some (indexed i .gtxn .gtxns [] [.field f.field] f.type)
  | .argumentCount =>
    if entry.isApplication then
      some ⟨none, .txn, [.field LedgerArray.arguments.count], .uint64⟩
    else none
  | .argument i =>
    some (if entry.isApplication then element .arguments i
      else indexed i .arg .args [] [] .bytes)

/-- How the type of a transaction is read. -/
def ofTransaction? : List (Step Expr) → Option Reading
  | [.name "Txn"] => some ⟨none, .txn, [.field "TypeEnum"], .uint64⟩
  | [.name "TxnGroup", .index i] =>
    some (indexed i .gtxn .gtxns [] [.field "TypeEnum"] .uint64)
  | _ => none

/-- The operations that read without a value from the stack. -/
def directCodes : List Opcode := [.txn, .globalField, .gtxn, .load, .txna, .arg]

/-- The operations that take an index from the stack. -/
def indexedCodes : List Opcode := [.gtxns, .loads, .txnas, .args, .balance, .minBalance]

/-- A reading whose operation takes the index that it computes, and refers to no label. -/
structure Valid (r : Reading) : Prop where
  code : r.code ∈ if r.index.isSome then indexedCodes else directCodes
  operands : r.operands.length = r.code.params.length
  target : (Instruction.op r.code r.operands).target? = none

end Reading

/-- The name that a place starts with. -/
def Variable.root : Variable → String
  | .name n _ => n
  | .index base _ _ => base.root
  | .member owner _ _ => owner.root

/-- The last index of a place, with the place that it is an index of. -/
def Variable.index? : Variable → Option (Variable × Expr)
  | .name _ _ => none
  | .index base i _ => some (base, i)
  | .member owner _ _ => owner.index?

/-! ## Expressions -/

/-- What code stands for below the level of statements. -/
inductive Item where
  | expr (e : Expr)
  | args (es : List Expr)
  /-- A place that is read in a certain way. -/
  | read (place : Variable) (r : Reading)
  /-- The test of a tested expression, checked in `state`, against one value of a case. -/
  | test (tested : Expr) (state : CheckState) (value : Expr)
  /-- Further tests, each joined to the outcome of those before it. -/
  | tests (tested : Expr) (state : CheckState) (values : List Expr)

/-- `Emits S names state t item code left`: with `t` values above the slots of `names`, `code`
stands for `item`, which is checked in `state`, and leaves a value of type `left`, if any. -/
inductive Emits (S : Setting) (names : List String) :
    CheckState → Nat → Item → List Instruction → Option StackType → Prop where
  | uint {cs t v span} :
    Emits S names cs t (.expr (.uint v span)) [.op .pushint [.uint v]] (some .uint64)
  | bytes {cs t v span} :
    Emits S names cs t (.expr (.bytes v span)) [.op .pushbytes [.bytes v]] (some .bytes)
  | not {cs t e span code k} (he : Emits S names cs t (.expr e) code (some k)) :
    Emits S names cs t (.expr (.unary .not e span)) (code ++ plain [.logicNot]) (some .uint64)
  | complement {cs t e span code k} (he : Emits S names cs t (.expr e) code (some k))
      (hallowed : S.allowed (.complement ⟨S.check, e, cs, k⟩ (complementOps k))) :
    Emits S names cs t (.expr (.unary .complement e span)) (code ++ plain (complementOps k))
      (some (if k = .bytes then .bytes else .uint64))
  | assign {cs t n right span span' code k} (hn : n ∈ names)
      (hmax : t + 2 + names.idxOf n ≤ maxImmediate)
      (he : Emits S names cs t (.expr right) code (some k)) (hstore : S.allowed (.store n cs)) :
    Emits S names cs t (.expr (.binary .assign (.var (.name n span)) right span'))
      (code ++ plain [.dup] ++ Lower.replaceCode (t + 2 + names.idxOf n)) (some k)
  | choice {cs cs₁ cs₂ t c l r span span' cc cl cr kc kl kr τc τl elseLabel endLabel}
      (hc : Emits S names cs t (.expr c) cc (some kc))
      (hcheck : c.check S.check cs = .ok (τc, cs₁))
      (hl : Emits S names cs₁ t (.expr l) cl (some kl))
      (hcheck' : l.check S.check cs₁ = .ok (τl, cs₂))
      (hr : Emits S names cs₂ t (.expr r) cr (some kr)) :
    Emits S names cs t (.expr (.binary .ternary c (.binary .colon l r span) span'))
      (cc ++ [.op .bz [.label elseLabel]] ++ cl ++
        [.op .branch [.label endLabel], .label elseLabel] ++ cr ++ [.label endLabel])
      (some (kr.join kl))
  | cast {cs cs₁ t e n span span' code k target τ}
      (he : Emits S names cs t (.expr e) code (some k))
      (hcheck : e.check S.check cs = .ok (τ, cs₁))
      (htype : Builtin.types.lookup? n = some target) (hcast : isCastable target)
      (hallowed : S.allowed (.cast target ⟨S.check, e, cs, k⟩ (castOps target k)))
      (hname : S.allowed (.builtin n cs₁)) :
    Emits S names cs t (.expr (.binary .colon e (.var (.name n span)) span'))
      (code ++ plain (castOps target k)) (some (castResult target))
  | typeTest {cs t o place n c span span' r code k} (ho : o = .eq ∨ o = .ne)
      (hr : Reading.ofTransaction? place.steps = some r)
      (hread : Emits S names cs t (.read place r) code k) (hn : transactionCode? n = some c)
      (hnot : n ∉ names) (hname : S.allowed (.builtin n cs))
      (hplace : S.allowed (.transaction place cs)) :
    Emits S names cs t (.expr (.binary o (.var place) (.var (.name n span)) span'))
      (code ++ [.op .pushint [.uint c], .op (if o = .ne then .ne else .eq) []]) (some .uint64)
  | operator {cs cs₁ t o l r span cl cr kl kr τl}
      (hl : Emits S names cs t (.expr l) cl (some kl))
      (hcheck : l.check S.check cs = .ok (τl, cs₁))
      (hr : Emits S names cs₁ (t + 1) (.expr r) cr (some kr)) (htakes : o.Takes kl kr)
      (hallowed : S.allowed
        (.operator o ⟨S.check, l, cs, kl⟩ ⟨S.check, r, cs₁, kr⟩ (o.emitted kl kr))) :
    Emits S names cs t (.expr (.binary o l r span)) (cl ++ cr ++ plain (o.emitted kl kr))
      (some (o.resultOf kl kr))
  | hash {cs cs₁ t input algorithm span code k c τ}
      (he : Emits S names cs t (.expr input) code (some k))
      (hcheck : input.check S.check cs = .ok (τ, cs₁))
      (hc : Lower.hashOpcode? algorithm = some c)
      (hname : ∀ n ∈ algorithm.asName?, S.allowed (.builtin n cs₁)) :
    Emits S names cs t (.expr (.call Builtin.hashFunction.1 [input, algorithm] span))
      (code ++ plain (hashOps k c)) (some .bytes)
  | call {cs t f sig args span code} (hf : f ≠ Builtin.hashFunction.1)
      (hsig : S.lower.signatures.lookup f = some sig) (harity : args.length = sig.arity)
      (hentry : S.check.isEntry f = false) (hcallable : S.callable f)
      (hargs : Emits S names cs t (.args args) code none) :
    Emits S names cs t (.expr (.call f args span)) (code ++ [.op .callsub [.label f]])
      (if sig.returnsValue then some .any else none)
  | local {cs t n span k} (hn : n ∈ names) (hmax : t + names.idxOf n ≤ maxImmediate)
      (hheld : S.held k)
      (hk : ∀ κ, S.lower.localType? span.start = some κ → κ ≠ .any → k = κ)
      (hslot : S.allowed (.slot n cs)) :
    Emits S names cs t (.expr (.var (.name n span)))
      [.op .dig [.uint (UInt64.ofNat (t + names.idxOf n))]] (some k)
  | constant {cs t n span v} (hn : n ∉ names) (hv : Lower.constant? S.lower.entry n = some v)
      (hname : S.allowed (.builtin n cs)) :
    Emits S names cs t (.expr (.var (.name n span))) [.op .pushint [.uint v]] (some .uint64)
  | place {cs t place load r code k} (hload : Load.ofSteps? place.steps = some load)
      (hr : Reading.ofLoad? S.lower.entry load = some r)
      (hread : Emits S names cs t (.read place r) code k)
      (hname : S.allowed (.builtin place.root cs)) :
    Emits S names cs t (.expr (.var place)) code k
  | readDirect {cs t place r} (hr : r.Valid) (hindex : r.index = none) :
    Emits S names cs t (.read place r) [.op r.code r.operands] (some r.type)
  | readIndexed {cs cs₁ t place r base i f code k} (hr : r.Valid) (hindex : r.index = some i)
      (hplace : place.index? = some (base, i)) (hcheck : base.check S.check cs = .ok (f, cs₁))
      (hi : Emits S names cs₁ t (.expr i) code (some k)) :
    Emits S names cs t (.read place r) (code ++ [.op r.code r.operands]) (some r.type)
  | argsNil {cs t} : Emits S names cs t (.args []) [] none
  | argsCons {cs cs₁ t e es τ code code' k} (he : Emits S names cs t (.expr e) code (some k))
      (hcheck : e.check S.check cs = .ok (τ, cs₁))
      (hes : Emits S names cs₁ (t + 1) (.args es) code' none) :
    Emits S names cs t (.args (e :: es)) (code ++ code') none
  | test {cs cs₀ t tested v ct cv kt kv} (ht : Emits S names cs₀ t (.expr tested) ct (some kt))
      (hv : Emits S names cs (t + 1) (.expr v) cv (some kv)) :
    Emits S names cs t (.test tested cs₀ v) (ct ++ cv ++ plain (BinaryOperator.eq.emitted kt kv))
      (some .uint64)
  | testType {cs cs₀ t place n c span r code k}
      (hr : Reading.ofTransaction? place.steps = some r)
      (hread : Emits S names cs₀ t (.read place r) code k) (hn : transactionCode? n = some c)
      (hnot : n ∉ names) (hname : S.allowed (.builtin n cs))
      (hplace : S.allowed (.transaction place cs₀)) :
    Emits S names cs t (.test (.var place) cs₀ (.var (.name n span)))
      (code ++ [.op .pushint [.uint c], .op .eq []]) (some .uint64)
  | testsNil {cs cs₀ t tested} : Emits S names cs t (.tests tested cs₀ []) [] none
  | testsCons {cs cs₁ cs₀ t tested v vs τ cv cvs k}
      (hv : Emits S names cs (t + 1) (.test tested cs₀ v) cv (some k))
      (hcheck : v.check S.check cs = .ok (τ, cs₁))
      (hvs : Emits S names cs₁ t (.tests tested cs₀ vs) cvs none) :
    Emits S names cs t (.tests tested cs₀ (v :: vs)) (cv ++ plain [.logicOr] ++ cvs) none

/-! ## Statements -/

/-- The names that a block which assigns some names brings into a layout, in order. -/
def newNames (names : List String) : List String → List String
  | [] => []
  | n :: ns => if n ∈ names then newNames names ns else n :: newNames (n :: names) ns

/-- What code stands for at the level of statements. -/
inductive Part where
  | stmt (s : Stmt)
  | stmts (ss : List Stmt)
  | block (b : Block)
  /-- The cases of a switch whose tested expression is checked in `state`. -/
  | chain (tested : Expr) (state : CheckState) (cases : List Case) (otherwise : Option Block)

/-- `Performs S names state part code ends`: on a frame that holds just the slots of `names`,
`code` stands for `part`, which is checked in `state`; with `ends`, control never gets past
it. -/
inductive Performs (S : Setting) :
    List String → CheckState → Part → List Instruction → Bool → Prop where
  | nil {names cs} : Performs S names cs (.stmts []) [] false
  | last {names cs s ss code} (hs : Performs S names cs (.stmt s) code true) :
    Performs S names cs (.stmts (s :: ss)) code true
  | next {names cs cs₁ s ss code code' ends} (hs : Performs S names cs (.stmt s) code false)
      (hcheck : s.check S.check cs = .ok ((), cs₁))
      (hss : Performs S names cs₁ (.stmts ss) code' ends) :
    Performs S names cs (.stmts (s :: ss)) (code ++ code') ends
  | block {names cs ss span new code ends} (hnew : newNames names (Stmt.assignedNames ss) = new)
      (hss : Performs S (new.reverse ++ names) { cs with scopes := cs.scopes.push .clear }
        (.stmts ss) code ends) :
    Performs S names cs (.block ⟨ss, span⟩)
      (List.replicate new.length (.op .pushint [.uint 0]) ++ code ++
        if ends then [] else List.replicate new.length (.op .pop [])) ends
  | discard {names cs e code left} (he : Emits S names cs 0 (.expr e) code left) :
    Performs S names cs (.stmt (.expr e))
      (code ++ List.replicate left.toList.length (.op .pop [])) false
  | store {names cs n right span span' code k} (hn : n ∈ names)
      (hmax : 1 + names.idxOf n ≤ maxImmediate)
      (he : Emits S names cs 0 (.expr right) code (some k)) (hstore : S.allowed (.store n cs)) :
    Performs S names cs (.stmt (.expr (.binary .assign (.var (.name n span)) right span')))
      (code ++ Lower.replaceCode (1 + names.idxOf n)) false
  | ifThen {names cs cs₁ c b span cc cb k τ ends endLabel}
      (hc : Emits S names cs 0 (.expr c) cc (some k))
      (hcheck : c.check S.check cs = .ok (τ, cs₁))
      (hb : Performs S names cs₁ (.block b) cb ends) :
    Performs S names cs (.stmt (.ifElse c b none span))
      (cc ++ [.op .bz [.label endLabel]] ++ cb ++ [.label endLabel]) false
  | ifElse {names cs cs₁ cs₂ c a b span cc ca cb k τ ends ends' elseLabel endLabel}
      (hc : Emits S names cs 0 (.expr c) cc (some k))
      (hcheck : c.check S.check cs = .ok (τ, cs₁))
      (ha : Performs S names cs₁ (.block a) ca ends)
      (hcheck' : a.check S.check cs₁ = .ok ((), cs₂))
      (hb : Performs S names cs₂ (.block b) cb ends') :
    Performs S names cs (.stmt (.ifElse c a (some b) span))
      (cc ++ [.op .bz [.label elseLabel]] ++ ca ++
        [.op .branch [.label endLabel], .label elseLabel] ++ cb ++ [.label endLabel])
      (ends && ends')
  | whileDo {names cs cs₁ c b span cc cb k τ ends startLabel endLabel}
      (hc : Emits S names cs 0 (.expr c) cc (some k))
      (hcheck : c.check S.check cs = .ok (τ, cs₁))
      (hb : Performs S names cs₁ (.block b) cb ends) :
    Performs S names cs (.stmt (.whileDo c b span))
      ([.label startLabel] ++ cc ++ [.op .bz [.label endLabel]] ++ cb ++
        [.op .branch [.label startLabel], .label endLabel]) false
  | doWhile {names cs cs₁ c b span cc cb k ends startLabel}
      (hb : Performs S names cs (.block b) cb ends)
      (hcheck : b.check S.check cs = .ok ((), cs₁))
      (hc : Emits S names cs₁ 0 (.expr c) cc (some k)) :
    Performs S names cs (.stmt (.doWhile b c span))
      ([.label startLabel] ++ cb ++ cc ++ [.op .bnz [.label startLabel]]) ends
  | switch {names cs cs₁ tested cases otherwise span τ code ends}
      (hcheck : tested.check S.check cs = .ok (τ, cs₁))
      (hchain : Performs S names cs₁ (.chain tested cs cases otherwise) code ends) :
    Performs S names cs (.stmt (.switch tested cases otherwise span)) code ends
  | chainNone {names cs tested cs₀} : Performs S names cs (.chain tested cs₀ [] none) [] false
  | chainOtherwise {names cs tested cs₀ b code ends}
      (hb : Performs S names cs (.block b) code ends) :
    Performs S names cs (.chain tested cs₀ [] (some b)) code ends
  | chainLast {names cs cs₁ cs₂ tested cs₀ v vs b span τ ct cts k cb ends endLabel}
      (hv : Emits S names cs 0 (.test tested cs₀ v) ct (some k))
      (hcheck : v.check S.check cs = .ok (τ, cs₁))
      (hvs : Emits S names cs₁ 0 (.tests tested cs₀ vs) cts none)
      (hvalues : ∃ τ, checkCaseValues S.check τ (v :: vs) cs = .ok ((), cs₂))
      (hb : Performs S names cs₂ (.block b) cb ends) :
    Performs S names cs (.chain tested cs₀ [⟨v :: vs, b, span⟩] none)
      (ct ++ cts ++ [.op .bz [.label endLabel]] ++ cb ++ [.label endLabel]) false
  | chainCons {names cs cs₁ cs₂ cs₃ tested cs₀ v vs b span cases otherwise τ ct cts k cb cr ends
        ends' elseLabel endLabel}
      (hv : Emits S names cs 0 (.test tested cs₀ v) ct (some k))
      (hcheck : v.check S.check cs = .ok (τ, cs₁))
      (hvs : Emits S names cs₁ 0 (.tests tested cs₀ vs) cts none)
      (hvalues : ∃ τ, checkCaseValues S.check τ (v :: vs) cs = .ok ((), cs₂))
      (hb : Performs S names cs₂ (.block b) cb ends)
      (hcheck' : b.check S.check cs₂ = .ok ((), cs₃))
      (hrest : Performs S names cs₃ (.chain tested cs₀ cases otherwise) cr ends') :
    Performs S names cs (.chain tested cs₀ (⟨v :: vs, b, span⟩ :: cases) otherwise)
      (ct ++ cts ++ [.op .bz [.label elseLabel]] ++ cb ++
        [.op .branch [.label endLabel], .label elseLabel] ++ cr ++ [.label endLabel])
      (ends && ends')
  | throwLogged {names cs message span span'} (happ : S.lower.entry.isApplication = true) :
    Performs S names cs (.stmt (.leave .throwing (some (.bytes message span)) span'))
      [.op .pushbytes [.bytes message], .op .log [], .op .err []] true
  | throwSilent {names cs message span span' text}
      (happ : S.lower.entry.isApplication = false) :
    Performs S names cs (.stmt (.leave .throwing (some (.bytes message span)) span'))
      [.comment text, .op .err []] true
  | exit {names cs e span code k} (he : Emits S names cs 0 (.expr e) code (some k)) :
    Performs S names cs (.stmt (.leave .exiting (some e) span)) (code ++ plain [.exit]) true
  | finish {names cs e span code k} (hmain : S.main = true)
      (he : Emits S names cs 0 (.expr e) code (some k)) :
    Performs S names cs (.stmt (.leave .returning (some e) span)) (code ++ plain [.exit]) true
  | finishNone {names cs span} (hmain : S.main = true) :
    Performs S names cs (.stmt (.leave .returning none span))
      [.op .pushint [.uint 1], .op .exit []] true
  | ret {names cs e span code k} (hmain : S.main = false) (hret : S.check.currentReturns = true)
      (hmax : names.length ≤ maxImmediate)
      (he : Emits S names cs 0 (.expr e) code (some k)) :
    Performs S names cs (.stmt (.leave .returning (some e) span))
      (code ++ dropCode names.length ++ plain [.retsub]) true
  | retNone {names cs span} (hmain : S.main = false) (hret : S.check.currentReturns = false) :
    Performs S names cs (.stmt (.leave .returning none span))
      (List.replicate names.length (.op .pop []) ++ plain [.retsub]) true

end ContractCompiler
