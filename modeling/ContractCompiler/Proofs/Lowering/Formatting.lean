import Mathlib.Algebra.Ring.Nat
import ContractCompiler.Compile
import ContractCompiler.Proofs.Lowering.Relocation
import ContractCompiler.Proofs.Syntax.RelocatedReading
import ContractCompiler.Proofs.Token.Division

/-!
# Formatting does not matter

Two texts that are cut into the same tokens, comments aside, say the same program: the code of their
entries is the same, or they fail for the same reason. Places go into the code in one way only, as
keys of what is known of the reads of local variables, and different reads never share one.
-/

namespace ContractCompiler

/-! ## From the places in one text to those in another -/

namespace Relocation

/-- Moves what stands at a key to the place of the token beside it, and everything else past the
last of these. -/
def between (moves : List (Nat × Token)) (hmoves : (moves.map (·.2.offset)).Nodup) :
    Relocation where
  extent e := match moves.lookup e.offset with
    | some t => t.extent
    | none => ⟨e.offset + (moves.map (·.2.offset)).sum + 1, 0⟩
  constant _ value := value
  offset o := match moves.lookup o with
    | some t => t.offset
    | none => o + (moves.map (·.2.offset)).sum + 1
  offset_extent e := by cases moves.lookup e.offset <;> rfl
  constant_eq _ _ := rfl
  injective := by
    have hmem : ∀ {o : Nat} {t : Token}, moves.lookup o = some t → (o, t) ∈ moves := by
      intro o t h
      obtain ⟨before, after, heq, -⟩ := List.lookup_eq_some_iff.1 h
      rw [heq]
      exact List.mem_append_right _ List.mem_cons_self
    have hbelow : ∀ {o : Nat} {t : Token}, moves.lookup o = some t →
        t.offset ≤ (moves.map (·.2.offset)).sum := fun h =>
      List.le_sum_of_mem (List.mem_map_of_mem (f := (·.2.offset)) (hmem h))
    intro a b h
    split at h
    case h_1 t ht =>
      split at h
      case h_1 u hu => exact congrArg Prod.fst (List.inj_on_of_nodup_map hmoves (hmem ht) (hmem hu) h)
      case h_2 =>
        have := hbelow ht
        omega
    case h_2 =>
      split at h
      case h_1 u hu =>
        have := hbelow hu
        omega
      case h_2 => omega

theorem token_between {moves : List (Nat × Token)} (hmoves : (moves.map (·.2.offset)).Nodup)
    {t t' : Token} (hlookup : moves.lookup t.offset = some t') (hlexeme : t'.lexeme = t.lexeme) :
    (between moves hmoves).token t = t' := by
  obtain ⟨l', o', n'⟩ := t'
  subst hlexeme
  simp only [token, between, Token.extent, hlookup]

/-- If the places of tokens all differ, each is moved to the one at its position. -/
theorem exists_of_lexemes {toks toks' : List Token}
    (hlexemes : toks'.map Token.lexeme = toks.map Token.lexeme)
    (hordered : toks.Pairwise fun t u => t.offset < u.offset)
    (hordered' : toks'.Pairwise fun t u => t.offset < u.offset) :
    ∃ σ : Relocation, toks' = toks.map σ.token := by
  have hlength : toks'.length = toks.length := by simpa using congrArg List.length hlexemes
  obtain ⟨moves, hmovesEq⟩ : ∃ moves, moves = (toks.map Token.offset).zip toks' := ⟨_, rfl⟩
  have hfrom : moves.map Prod.fst = toks.map Token.offset := by
    rw [hmovesEq, List.map_fst_zip (by simp [hlength])]
  have hto : moves.map Prod.snd = toks' := by
    rw [hmovesEq, List.map_snd_zip (by simp [hlength])]
  have hkeys : moves.Pairwise fun a b => a.1 ≠ b.1 := by
    rw [← List.pairwise_map (f := Prod.fst) (R := (· ≠ ·)), hfrom]
    exact List.pairwise_map.2 (hordered.imp Nat.ne_of_lt)
  have hmoves : (moves.map (·.2.offset)).Nodup := by
    have hdistinct : (toks'.map Token.offset).Nodup :=
      List.pairwise_map.2 (hordered'.imp Nat.ne_of_lt)
    rwa [← hto, List.map_map] at hdistinct
  refine ⟨between moves hmoves, List.ext_getElem (by simp [hlength]) fun i h' h => ?_⟩
  rw [List.length_map] at h
  have hmem : (toks[i].offset, toks'[i]) ∈ moves := by
    rw [hmovesEq]
    exact List.mem_iff_getElem.2 ⟨i, by simp [h, h'], by simp⟩
  have hlookup := (lookup_eq_some_of_distinct hkeys).2 hmem
  have hlexeme : toks'[i].lexeme = toks[i].lexeme := by
    have := congrArg (·[i]?) hlexemes
    simpa [h, h'] using this
  rw [List.getElem_map, token_between hmoves hlookup hlexeme]

end Relocation

/-! ## Diagnostics without places -/

/-- A diagnostic without its place in the text and the piece of text that it quotes. -/
def Diagnostic.unplaced : Diagnostic → Diagnostic
  | .define fault _ => .define fault .origin
  | .lex fault _ => .lex fault .origin
  | .expected what found _ => .expected what found .origin
  | .unsupported word _ => .unsupported word .origin
  | .meaning fault _ _ => .meaning fault "" .origin
  | d@(.code ..) | d@(.mode _) | d@(.option _) | d@(.limit _) => d

theorem unplaced_ofSyntax {σ : Relocation} (text text' : List Char) (e : SyntaxFault) :
    (Diagnostic.ofSyntax text' (σ.fault e)).unplaced = (Diagnostic.ofSyntax text e).unplaced := by
  cases e with
  | unexpected what found => cases found <;> rfl
  | _ => rfl

/-- Relocated programs are accepted alike, and have the same code. -/
theorem Relocation.generateAll_relocated {σ : Relocation} {p p' : Program}
    (hp : p'.functions = p.functions.map σ.function) (text text' : List Char) (version : Nat)
    (mode : Mode) :
    (do p'.generateAll (← p'.check mode text').localType? version mode).mapError
        Diagnostic.unplaced =
      (do p.generateAll (← p.check mode text).localType? version mode).mapError
        Diagnostic.unplaced := by
  unfold Program.check
  cases mode.fault? with
  | some fault => rfl
  | none =>
    have hrules := alike_checkRules hp mode
    generalize p.checkRules mode = x at hrules
    generalize p'.checkRules mode = x' at hrules
    cases hrules with
    | @error e e' he =>
      show Except.error (Diagnostic.meaning e'.fault "" .origin) =
        Except.error (Diagnostic.meaning e.fault "" .origin)
      rw [he]
    | ok ha =>
      exact congrArg (Except.mapError Diagnostic.unplaced)
        (generateList_relocated hp ha.notes version mode.entries)

theorem compileAll_of_tokens {text : List Char} {toks : List Token} {o : Options}
    (ho : o.expand = false) (h : Source.tokens text = .ok toks) :
    compileAll text o = (do
      o.validate
      let p ← (Program.ofTokens toks).mapError (Diagnostic.ofSyntax text)
      let analysis ← p.check o.mode text
      p.generateAll analysis.localType? o.version o.mode) := by
  have hprogram : Source.program text =
      (Program.ofTokens toks).mapError (Diagnostic.ofSyntax text) := by
    rw [Source.program, h]
    rfl
  rw [compileAll, ho, ← hprogram]
  rfl

/-- Formatting does not matter: from two texts with the same tokens, comments aside, come the same
programs, or the same diagnostic but for places. -/
theorem compileAll_formatting {text text' : List Char} {toks toks' : List Token} {o : Options}
    (ho : o.expand = false) (h : Source.tokens text = .ok toks)
    (h' : Source.tokens text' = .ok toks')
    (hsame : (toks'.filter (!·.isComment)).map Token.lexeme =
      (toks.filter (!·.isComment)).map Token.lexeme) :
    (compileAll text' o).mapError Diagnostic.unplaced =
      (compileAll text o).mapError Diagnostic.unplaced := by
  have hordered := (Source.tokens_eq_ok_iff.1 h).1.ordered
  have hordered' := (Source.tokens_eq_ok_iff.1 h').1.ordered
  obtain ⟨σ, hσ⟩ := Relocation.exists_of_lexemes hsame (hordered.filter _) (hordered'.filter _)
  rw [compileAll_of_tokens ho h, compileAll_of_tokens ho h']
  cases o.validate with
  | error e =>
    show Except.error e.unplaced = Except.error e.unplaced
    rfl
  | ok =>
    rcases Program.ofTokens_relocated hσ with ⟨p, p', hp, hp', hfunctions⟩ | ⟨e, he, he'⟩
    · rw [hp, hp']
      exact Relocation.generateAll_relocated hfunctions text text' o.version o.mode
    · rw [he, he']
      exact congrArg Except.error (unplaced_ofSyntax text text' e)

/-- Reads of a byte string, where the type that is known at each place selects the operation. The
second text has comments and blanks between all tokens. -/
theorem compileAll_formatting_comments :
    ∃ text text' toks toks', Source.tokens text = .ok toks ∧ Source.tokens text' = .ok toks' ∧
      text = "def ApprovalProgram()\x7bx=Txn.Sender;return(x)<x;\x7d".toList ∧
      text' = "def ApprovalProgram ( ) \x7b // é\n x = /**/ Txn . Sender ; return ( x ) < x ; \x7d".toList ∧
      (compileAll text ⟨.single .approval, 5, false⟩).toOption.map (List.map Assembly.code) =
        some [[.op .pushint [.uint 0], .op .txn [.field "Sender"], .op .swap [], .op .pop [],
          .op .dig [.uint 0], .op .dig [.uint 1], .op .bytesLt [], .op .exit []]] ∧
      (compileAll text' ⟨.single .approval, 5, false⟩).mapError Diagnostic.unplaced =
        (compileAll text ⟨.single .approval, 5, false⟩).mapError Diagnostic.unplaced := by
  obtain ⟨text, htext⟩ : ∃ text, text =
    "def ApprovalProgram()\x7bx=Txn.Sender;return(x)<x;\x7d".toList := ⟨_, rfl⟩
  obtain ⟨text', htext'⟩ : ∃ text', text' =
    "def ApprovalProgram ( ) \x7b // é\n x = /**/ Txn . Sender ; return ( x ) < x ; \x7d".toList :=
    ⟨_, rfl⟩
  have hsome : (Source.tokens text).toOption.isSome ∧ (Source.tokens text').toOption.isSome := by
    subst htext htext'
    rw [String.toList_ofList, String.toList_ofList]
    decide +kernel
  have hsame : (Source.tokens text').toOption.map
        (fun toks => (toks.filter (!·.isComment)).map Token.lexeme) =
      (Source.tokens text).toOption.map
        (fun toks => (toks.filter (!·.isComment)).map Token.lexeme) := by
    subst htext htext'
    rw [String.toList_ofList, String.toList_ofList]
    decide +kernel
  have hcode : (compileAll text ⟨.single .approval, 5, false⟩).toOption.map
      (List.map Assembly.code) =
        some [[.op .pushint [.uint 0], .op .txn [.field "Sender"], .op .swap [], .op .pop [],
          .op .dig [.uint 0], .op .dig [.uint 1], .op .bytesLt [], .op .exit []]] := by
    subst htext
    rw [String.toList_ofList]
    decide +kernel
  cases h : Source.tokens text with
  | error e => simp [h, Except.toOption] at hsome
  | ok toks =>
    cases h' : Source.tokens text' with
    | error e => simp [h', Except.toOption] at hsome
    | ok toks' =>
      rw [h, h'] at hsame
      exact ⟨text, text', toks, toks', h, h', htext, htext', hcode,
        compileAll_formatting rfl h h' (Option.some.inj hsame)⟩

end ContractCompiler
