import ContractCompiler.Proofs.Lowering.Depths
import ContractCompiler.Proofs.Lowering.Writing
import ContractCompiler.Proofs.Token.Division

/-!
# One line for each instruction

Texts of a source reach the assembly at few places. Names of functions and parameters are
identifiers, byte constants are written in base 64, and labels are made from words and numbers. The
one text that is copied as it stands is the message of a `throw` outside of an application, which
becomes a comment.
-/

namespace ContractCompiler

open Text (IsLine)

/-! ## Programs -/

/-- The messages that a program throws. -/
def Program.thrown (p : Program) : List (List UInt8) :=
  (Node.program p).found Node.message?

/-- The comment for a message. -/
def Instruction.thrown (message : List UInt8) : Instruction :=
  .comment (throwText message)

/-- The comment for a message is a single line if the message is. -/
theorem Instruction.isLine_thrown {message : List UInt8} (h : '\n' ∉ Text.decodeLossy message) :
    IsLine (Instruction.thrown message).text :=
  isLine_comment (Text.isLine_append.2 ⟨by decide, Text.isLine_ofList.2 h⟩)

/-- A single line, or the comment for one of some messages in a program that is none of an
application. -/
def Instruction.IsPlain (entry : Entry) (messages : List (List UInt8)) (i : Instruction) : Prop :=
  IsLine i.text ∨ entry.isApplication = false ∧ ∃ m ∈ messages, i = .thrown m

/-- The head of a function is a single line if its names are. -/
theorem Function.isLine_display {f : Function} (hname : IsLine f.name)
    (hparams : ∀ n ∈ f.params, IsLine n) : IsLine f.display := by
  simp only [Function.display, Text.isLine_append]
  exact ⟨⟨⟨hname, by decide⟩, Text.isLine_intercalate (by decide) hparams⟩, by decide⟩

/-- Every instruction of a program is a single line or the comment for a message that it throws. -/
theorem Program.generate_isPlain {p : Program} {localType? : Nat → Option StackType} {version : Nat}
    {entry : Entry} {asm : Assembly}
    (hnames : ∀ f ∈ p.functions, IsLine f.name ∧ ∀ n ∈ f.params, IsLine n)
    (h : p.generate localType? version entry = .ok asm) :
    asm.entry = entry.functionName ∧ ∀ i ∈ asm.code, i.IsPlain entry p.thrown := by
  obtain ⟨main, s, hmain, hrun, hfinish⟩ := Program.generate_eq_ok h
  obtain ⟨hcode, hentry, -, -⟩ := finish_eq_ok hfinish
  have hreached := Program.reachable_reached (Program.name_of_function? hmain ▸ hmain)
  have hmem : ∀ f ∈ p.reachable main, f ∈ p.functions := fun f hf => hreached.mem hf
  have hsuits : Lower.Suits (LowerEnv.ofProgram p localType? entry)
      (version, .single entry) (Instruction.IsPlain entry p.thrown) := by
    refine ⟨⟨fun _ hregular => .inl (Instruction.isLine_op _ hregular.line),
      fun _ _ _ hl => .inl (Instruction.isLine_op _ (by simpa using hl)),
      fun hl => .inl (Instruction.isLine_label hl)⟩, fun {callee sig} _ hsig => ?_⟩
    replace hsig : p.signatures.lookup callee = some sig := hsig
    rw [p.lookup_signatures] at hsig
    obtain ⟨g, hg, -⟩ := Option.map_eq_some_iff.1 hsig
    have hcallee : IsLine callee := by
      rw [← Program.name_of_function? hg]
      exact (hnames g (List.mem_of_find?_eq_some hg)).1
    exact .inl (Instruction.isLine_op _ (by simpa using hcallee))
  have hheads : ∀ f ∈ p.reachable main,
      (Instruction.comment (" " ++ f.display)).IsPlain entry p.thrown ∧
        (Instruction.label f.name).IsPlain entry p.thrown := by
    intro f hf
    obtain ⟨hname, hparams⟩ := hnames f (hmem f hf)
    have hhead : IsLine (" " ++ f.display) :=
      Text.isLine_append.2 ⟨by decide, f.isLine_display hname hparams⟩
    exact ⟨.inl (Instruction.isLine_comment hhead), .inl (Instruction.isLine_label hname)⟩
  have hthrows : ∀ f ∈ p.reachable main, (Node.function f).Throws
      (LowerEnv.ofProgram p localType? entry) (Instruction.IsPlain entry p.thrown) := by
    intro f hf hentry m hm
    have hchild : Node.function f ∈ (Node.program p).children :=
      List.mem_map_of_mem (hmem f hf)
    exact .inr ⟨hentry, m, Node.found_subset _ hchild hm, rfl⟩
  obtain ⟨-, hwrites⟩ := Function.lowerAll_writes hsuits hheads hthrows _ _ _ rfl hrun
  refine ⟨hentry, fun i hi => ?_⟩
  rw [hcode, Builder.code, List.mem_reverse] at hi
  rcases hwrites i hi with hi | hi
  · cases hi
  · exact hi

/-! ## Names -/

/-- A proper identifier is a single line. -/
theorem Lexeme.isLine_of_isProper {name : String} (h : (Lexeme.identifier name).IsProper) :
    IsLine name := by
  obtain ⟨c, cs, hname, hc, hcs⟩ := h
  rw [IsLine, hname, List.mem_cons, not_or]
  refine ⟨?_, fun hmem => absurd (hcs _ hmem) (by decide)⟩
  rintro rfl
  exact absurd hc (by decide)

theorem Token.isLine_of_definableName? {t : Token} {name : String} (ht : t.lexeme.IsProper)
    (h : t.definableName? = some name) : IsLine name := by
  unfold Token.definableName? at h
  split at h
  case h_1 n hn =>
    split at h
    · cases h
    · cases h
      rw [hn] at ht
      exact Lexeme.isLine_of_isProper ht
  case h_2 => cases h

section Names

variable {toks rest : List Token}

theorem readName_isLine {what : Expected} {name : String} {t : Token}
    (h : readName what toks = .ok ((name, t), rest)) (htoks : ∀ t ∈ toks, t.lexeme.IsProper) :
    IsLine name := by
  cases toks with
  | nil => cases h
  | cons u us =>
    rw [readName] at h
    split at h
    case h_1 n hn =>
      cases h
      exact Token.isLine_of_definableName? (htoks t List.mem_cons_self) hn
    case h_2 => cases h

theorem readParams_isLine {acc ps : List String} (h : readParams toks acc = .ok (ps, rest))
    (htoks : ∀ t ∈ toks, t.lexeme.IsProper) (hacc : ∀ n ∈ acc, IsLine n) :
    ∀ n ∈ ps, IsLine n := by
  fun_induction readParams toks acc with
  | case1 | case2 => cases h
  | case3 t acc name hname =>
    cases h
    have ht := Token.isLine_of_definableName? (htoks t List.mem_cons_self) hname
    simpa [or_imp, forall_and] using ⟨hacc, ht⟩
  | case4 t acc name hname c rest _ ih =>
    have ht := Token.isLine_of_definableName? (htoks t List.mem_cons_self) hname
    refine ih h (fun u hu => htoks u ?_) (List.forall_mem_cons.2 ⟨ht, hacc⟩)
    exact List.mem_cons_of_mem _ (List.mem_cons_of_mem _ hu)
  | case5 t acc name hname c rest _ =>
    cases h
    have ht := Token.isLine_of_definableName? (htoks t List.mem_cons_self) hname
    simpa [or_imp, forall_and] using ⟨hacc, ht⟩

theorem readFunction_isLine {fuel : Nat} {f : Function}
    (h : readFunction fuel toks = .ok (f, rest)) (htoks : ∀ t ∈ toks, t.lexeme.IsProper) :
    IsLine f.name ∧ ∀ n ∈ f.params, IsLine n := by
  obtain ⟨⟨_, toks₁⟩, hdef, h⟩ := ok_of_bind h
  obtain ⟨⟨⟨name, _⟩, toks₂⟩, hname, h⟩ := ok_of_bind h
  obtain ⟨⟨_, toks₃⟩, hopen, h⟩ := ok_of_bind h
  obtain ⟨⟨params, _⟩, hparams, h⟩ := ok_of_bind h
  obtain ⟨⟨_, _⟩, -, h⟩ := ok_of_bind h
  obtain ⟨⟨body, _⟩, -, h⟩ := ok_of_bind h
  cases h
  rw [readWord_eq_cons hdef] at htoks
  have htoks₁ := (List.forall_mem_cons.1 htoks).2
  have htoks₃ : ∀ t ∈ toks₃, t.lexeme.IsProper := by
    rw [readName_eq_cons hname, readSymbol_eq_cons hopen] at htoks₁
    exact fun t ht => htoks₁ t (List.mem_cons_of_mem _ (List.mem_cons_of_mem _ ht))
  refine ⟨readName_isLine hname htoks₁, ?_⟩
  change readParamList toks₃ = _ at hparams
  unfold readParamList at hparams
  split at hparams
  · cases hparams
    exact List.forall_mem_nil _
  · exact readParams_isLine hparams htoks₃ (List.forall_mem_nil _)

theorem readFunctions_isLine {fuel n : Nat} {acc fs : List Function}
    (h : readFunctions (readFunction n) fuel toks acc = .ok fs)
    (htoks : ∀ t ∈ toks, t.lexeme.IsProper)
    (hacc : ∀ f ∈ acc, IsLine f.name ∧ ∀ n ∈ f.params, IsLine n) :
    ∀ f ∈ fs, IsLine f.name ∧ ∀ n ∈ f.params, IsLine n := by
  fun_induction readFunctions (readFunction n) fuel toks acc with
  | case1 =>
    cases h
    simpa using hacc
  | case2 | case3 => cases h
  | case4 acc fuel t ts f rest hf ih =>
    obtain ⟨used, hused, -⟩ := readFunction_lays _ _ _ hf
    exact ih h (fun u hu => htoks u (hused ▸ List.mem_append_right _ hu))
      (List.forall_mem_cons.2 ⟨readFunction_isLine hf htoks, hacc⟩)

/-- The names of functions and parameters are single lines. -/
theorem Source.isLine_names {text : List Char} {p : Program} (h : Source.program text = .ok p) :
    ∀ f ∈ p.functions, IsLine f.name ∧ ∀ n ∈ f.params, IsLine n := by
  obtain ⟨toks, htoks, hp⟩ := Source.tokens_of_program h
  have hdivides := (Source.tokens_eq_ok_iff.1 htoks).1
  have hproper : ∀ t ∈ toks.filter (!·.isComment), t.lexeme.IsProper := by
    intro t ht
    obtain ⟨-, -, -, -, -, -, hproper, -⟩ := hdivides.slice t (List.mem_of_mem_filter ht)
    exact hproper
  obtain ⟨fs, hfs, hp⟩ := ok_of_bind hp
  cases hp
  exact readFunctions_isLine hfs hproper (List.forall_mem_nil _)

end Names

/-! ## Compiled sources -/

/-- Programs are written line by line, as long as a signature program throws no message with a line
feed. -/
theorem compileAll_lineByLine {text : List Char} {o : Options} {asms : List Assembly}
    (h : compileAll text o = .ok asms) :
    ∃ source p, (if o.expand then Source.expand text else pure text) = .ok source ∧
      Source.program source = .ok p ∧ asms.length = o.mode.entries.length ∧
      ∀ asm ∈ asms, (asm.entry = Entry.signature.functionName →
        ∀ m ∈ p.thrown, '\n' ∉ Text.decodeLossy m) → asm.LineByLine := by
  obtain ⟨source, p, a, hsource, hp, -, hasms⟩ := compileAll_eq_ok h
  refine ⟨source, p, hsource, hp, hasms.length_eq.symm, fun asm hasm hthrown => ?_⟩
  obtain ⟨entry, -, hgenerate⟩ := exists_left_of_forall₂ hasms hasm
  obtain ⟨hentry, hplain⟩ := Program.generate_isPlain (Source.isLine_names hp) hgenerate
  refine Assembly.lineByLine_iff.2 fun i hi => ?_
  rcases hplain i hi with hline | ⟨hsignature, m, hm, rfl⟩
  · exact hline
  · cases entry with
    | signature => exact Instruction.isLine_thrown (hthrown hentry m hm)
    | approval | clearState => cases hsignature

/-- A signature program with a line feed in a constant, and none in the message that it throws. -/
theorem compileAll_lineByLine_signature :
    ∃ asms, compileAll "def f(a, b) \x7b return a == \"x\ny\" ? b : 2; \x7d
        def Signature() \x7b if (f(args[0], 1)) throw \"no\"; return 1; \x7d".toList
        ⟨.single .signature, 5, false⟩ = .ok asms ∧ asms.length = 1 ∧
      ∀ asm ∈ asms, asm.entry = Entry.signature.functionName ∧ asm.LineByLine := by
  have hrun : (do
      let asms ← compileAll "def f(a, b) \x7b return a == \"x\ny\" ? b : 2; \x7d
        def Signature() \x7b if (f(args[0], 1)) throw \"no\"; return 1; \x7d".toList
        ⟨.single .signature, 5, false⟩
      return asms.map Assembly.entry) = Except.ok ["Signature"] := by
    rw [String.toList_ofList]
    decide +kernel
  have hthrown : (do
      let p ← Source.program "def f(a, b) \x7b return a == \"x\ny\" ? b : 2; \x7d
        def Signature() \x7b if (f(args[0], 1)) throw \"no\"; return 1; \x7d".toList
      return p.thrown) = Except.ok [[110, 111]] := by
    rw [String.toList_ofList]
    decide +kernel
  obtain ⟨asms, hasms, hrun⟩ := ok_of_bind hrun
  obtain ⟨source, p, hsource, hp, hlength, hall⟩ := compileAll_lineByLine hasms
  cases hsource
  rw [hp] at hthrown
  have hmessages : p.thrown = [[110, 111]] := Except.ok.inj hthrown
  refine ⟨asms, hasms, hlength, fun asm hasm => ?_⟩
  have hentries : asms.map Assembly.entry = ["Signature"] := Except.ok.inj hrun
  have hentry : asm.entry ∈ ["Signature"] := hentries ▸ List.mem_map_of_mem hasm
  refine ⟨List.mem_singleton.1 hentry, hall asm hasm fun _ m hm => ?_⟩
  rw [hmessages] at hm
  cases List.mem_singleton.1 hm
  decide

/-- With a line feed in its message, a signature program has a line that is no instruction. -/
example : (compileAll "def Signature() \x7b throw \"a\nint 1\"; \x7d".toList
    (.ofMode (.single .signature))).toOption.map (·.map fun asm => (asm.code.length, asm.text)) =
      some [(2, "#pragma version 5\n// throw a\nint 1\nerr\n")] := by decide +kernel

end ContractCompiler
