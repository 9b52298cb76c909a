/-
Expressions that differ only in the names of their parameters.

* `Expr.Alike` — the same expressions but for these names, along a correspondence of the names
  around them;
* `Expr.Alike.reach_eq` — alike expressions are interpreted alike;
* `Links.alike` — alike expressions are accepted alike.

Design notes: two parameters correspond if they are at the same place of lambdas that correspond, so
it plays no part which names are given to them or hidden by them. The qualifiers and the constants
of a vocabulary are words: a parameter of such a name is found only before brackets. The names after
a point are those of properties, so they stay.
-/
import DocQuery.Proofs.Formula.Scoping

namespace DocQuery

/-- Whether a name by itself is a qualifier or a constant, whatever lambdas are around it. -/
def Vocabulary.isWord (v : Vocabulary) (name : String) : Bool :=
  (Qualifier.ofName? name).isSome || (v.constants.lookup name).isSome

/-- A word stands for the same everywhere. -/
theorem World.begin_word {w : World} {n : String} (h : w.vocabulary.isWord n)
    (ρ ρ' : Environment) : w.begin ρ' n = w.begin ρ n := by
  unfold World.begin
  rcases hq : Qualifier.ofName? n with _ | q
  · rcases hv : w.vocabulary.constants.lookup n with _ | x
    · simp [Vocabulary.isWord, hq, hv] at h
    · rfl
  · rfl

theorem World.begin_name {w : World} {n : String} (h : w.vocabulary.isWord n = false)
    (ρ : Environment) :
    w.begin ρ n = (w.resolve (ρ n) >>= fun v => pure (.value v true)) := by
  unfold World.begin
  simp only [Vocabulary.isWord, Bool.or_eq_false_iff, Option.isSome_eq_false_iff,
    Option.isNone_iff_eq_none] at h
  rw [h.1, h.2]

/-! ### Alike expressions -/

/-- The names inside of two lambdas that correspond: parameters at the same place, or names that
neither lambda hides and that correspond outside. -/
def Inside (R : String → String → Prop) (parameters parameters' : List Parameter)
    (name name' : String) : Prop :=
  (parameters.map (·.name)).idxOf? name = (parameters'.map (·.name)).idxOf? name' ∧
    ((parameters.map (·.name)).idxOf? name = none → R name name')

/-- Whether corresponding names stand for the same in two environments. -/
def Environment.Corresponds (R : String → String → Prop) (ρ ρ' : Environment) : Prop :=
  ∀ n n', R n n' → ρ n = ρ' n'

theorem Environment.Corresponds.enter {R : String → String → Prop} {ρ ρ' : Environment}
    (h : Environment.Corresponds R ρ ρ') (parameters parameters' : List Parameter)
    (item : Node × Nat) :
    Environment.Corresponds (Inside R parameters parameters')
      (ρ.enter (parameters.map (·.name)) item) (ρ'.enter (parameters'.map (·.name)) item) := by
  rintro n n' ⟨hplace, hR⟩
  unfold Environment.enter
  rw [← hplace]
  rcases hi : (parameters.map (·.name)).idxOf? n with _ | _ | k
  · simp only [hi]
    exact h n n' (hR hi)
  · simp only [hi]
  · simp only [hi]

namespace Expr

variable {v : Vocabulary}

mutual

/-- Whether two expressions are the same but for the names of parameters, where `R` tells which of
the names around them correspond. Only names at the beginning of a lookup can be parameters. -/
inductive Alike (v : Vocabulary) : (String → String → Prop) → (isHead : Bool) → Expr → Expr → Prop
  | same {R : String → String → Prop} {isHead : Bool} {n : String} (p : Position) :
    isHead = false ∨ v.isWord n → Alike v R isHead (.name n p) (.name n p)
  | name {R : String → String → Prop} {n n' : String} (p : Position) :
    v.isWord n = false → v.isWord n' = false → R n n' →
      Alike v R true (.name n p) (.name n' p)
  | number {R : String → String → Prop} {isHead : Bool} (digits : String) (p : Position) :
    Alike v R isHead (.number digits p) (.number digits p)
  | text {R : String → String → Prop} {isHead : Bool} (content : String) (p : Position) :
    Alike v R isHead (.text content p) (.text content p)
  | binary {R : String → String → Prop} {isHead : Bool} {o : Operator}
    {left left' right right' : Expr} (p : Position) :
    Alike v R (isHead || o.name != pathOperator) left left' →
      Alike v R (o.name != pathOperator) right right' →
        Alike v R isHead (.binary o left right p) (.binary o left' right' p)
  | before {R : String → String → Prop} {isHead : Bool} {o : Operator} {operand operand' : Expr}
    (p : Position) :
    Alike v R (isHead || o.name != pathOperator) operand operand' →
      Alike v R isHead (.before o operand p) (.before o operand' p)
  | after {R : String → String → Prop} {isHead : Bool} {o : Operator} {operand operand' : Expr}
    (p : Position) :
    Alike v R (isHead || o.name != pathOperator) operand operand' →
      Alike v R isHead (.after o operand p) (.after o operand' p)
  | group {R : String → String → Prop} {isHead : Bool} {inner inner' : Expr} (p : Position) :
    Alike v R true inner inner' → Alike v R isHead (.group inner p) (.group inner' p)
  | call {R : String → String → Prop} {isHead : Bool} {function : String}
    {arguments arguments' : List Expr} (p : Position) :
    AllAlike v R arguments arguments' →
      Alike v R isHead (.call function arguments p) (.call function arguments' p)
  | index {R : String → String → Prop} {n n' : String} {indexes indexes' : List Expr}
    (p : Position) :
    R n n' → AllAlike v R indexes indexes' →
      Alike v R true (.index n indexes p) (.index n' indexes' p)
  | memberIndex {R : String → String → Prop} {n : String} {indexes indexes' : List Expr}
    (p : Position) :
    AllAlike v R indexes indexes' →
      Alike v R false (.index n indexes p) (.index n indexes' p)
  | lambda {R : String → String → Prop} {isHead : Bool} {parameters parameters' : List Parameter}
    {body body' : Expr} (p : Position) :
    parameters.length = parameters'.length →
      Alike v (Inside R parameters parameters') true body body' →
        Alike v R isHead (.lambda parameters body p) (.lambda parameters' body' p)

/-- Whether expressions are alike, one by one. -/
inductive AllAlike (v : Vocabulary) : (String → String → Prop) → List Expr → List Expr → Prop
  | nil {R : String → String → Prop} : AllAlike v R [] []
  | cons {R : String → String → Prop} {e e' : Expr} {es es' : List Expr} :
    Alike v R true e e' → AllAlike v R es es' → AllAlike v R (e :: es) (e' :: es')

end

/-- What two expressions have in common if they look the same from outside. -/
structure SameLook (v : Vocabulary) (e e' : Expr) : Prop where
  position : e'.position = e.position
  head : e'.head = e.head
  place : e'.place = e.place
  kind : e'.kind v = e.kind v
  isLoosePath : e'.isLoosePath = e.isLoosePath

theorem kind_name_of_not_word {n : String} {p : Position} (h : v.isWord n = false) :
    (name n p).kind v = .found := by
  simp only [Vocabulary.isWord, Bool.or_eq_false_iff, Option.isSome_eq_false_iff,
    Option.isNone_iff_eq_none] at h
  rw [kind, h.1, h.2]

-- The recursion is on the expression, and which names correspond may differ from level to level.
theorem sameLook_of_alike {e e' : Expr}
    (h : ∃ (R : String → String → Prop) (isHead : Bool), Alike v R isHead e e') :
    SameLook v e e' := by
  obtain ⟨R, isHead, h⟩ := h
  cases h with
  | same | number | text | call | index | memberIndex | lambda => exact ⟨rfl, rfl, rfl, rfl, rfl⟩
  | name p hn hn' _ =>
    exact ⟨rfl, rfl, rfl, (kind_name_of_not_word hn').trans (kind_name_of_not_word hn).symm, rfl⟩
  | binary _ hleft hright =>
    have hl := sameLook_of_alike ⟨_, _, hleft⟩
    have hr := sameLook_of_alike ⟨_, _, hright⟩
    refine ⟨rfl, ?_, ?_, ?_, rfl⟩
    · rw [head, head, hl.head]
    · rw [place, place, hl.head]
    · rw [kind, kind, hl.kind, hr.kind]
  | before _ hoperand | after _ hoperand =>
    have h := sameLook_of_alike ⟨_, _, hoperand⟩
    refine ⟨rfl, ?_, ?_, ?_, rfl⟩
    · rw [head, head, h.head]
    · rw [place, place, h.place]
    · rw [kind, kind, h.kind]
  | group _ hinner =>
    have h := sameLook_of_alike ⟨_, _, hinner⟩
    exact ⟨rfl, rfl, h.place, h.kind, rfl⟩
termination_by structural e

theorem Alike.sameLook {R : String → String → Prop} {isHead : Bool} {e e' : Expr}
    (h : Alike v R isHead e e') : SameLook v e e' :=
  sameLook_of_alike ⟨R, isHead, h⟩

/-! ### Values -/

theorem SameLook.sense_eq {w : World} {e e' : Expr} (h : SameLook w.vocabulary e e')
    {reached reached' : Traced Reached} (hreached : reached' = reached) :
    e'.sense w reached' = e.sense w reached := by
  rw [sense, sense, hreached, h.place, h.kind]

mutual

/-- Alike expressions reach the same where corresponding names stand for the same. -/
theorem Alike.reach_eq {w : World} {R : String → String → Prop} {isHead : Bool} {e e' : Expr}
    (h : Alike w.vocabulary R isHead e e') {ρ ρ' : Environment}
    (hρ : Environment.Corresponds R ρ ρ') (before : Option Reached)
    (hhead : isHead = before.isNone) : e'.reach w ρ' before = e.reach w ρ before := by
  cases h with
  | @same _ _ n p hword =>
    cases before with
    | none =>
      rw [hhead] at hword
      exact World.begin_word (hword.resolve_left (by simp)) ρ ρ'
    | some r => rfl
  | @name _ n n' p hn hn' hnames =>
    cases before with
    | none =>
      rw [reach, reach]
      simp only [World.begin_name hn, World.begin_name hn', hρ n n' hnames]
    | some r => simp at hhead
  | number | text => rfl
  | @binary _ _ o left left' right right' p hleft hright =>
    rw [reach.eq_def, reach.eq_def w ρ before]
    simp only
    by_cases hpath : o.name = pathOperator
    · have hl := hleft.reach_eq hρ before (by simp [hpath, hhead])
      have hr (r : Reached) := hright.reach_eq hρ (some r) (by simp [hpath])
      simp only [if_pos hpath, hl, hr]
    · have hl := hleft.reach_eq hρ none (by simp [hpath])
      have hr := hright.reach_eq hρ none (by simp [hpath])
      simp only [if_neg hpath, hleft.sameLook.sense_eq hl, hright.sameLook.sense_eq hr]
  | @before _ _ o operand operand' p hoperand =>
    rw [reach.eq_def, reach.eq_def w ρ before]
    simp only
    by_cases hpath : o.name = pathOperator
    · have h := hoperand.reach_eq hρ before (by simp [hpath, hhead])
      simp only [if_pos hpath, h]
    · have h := hoperand.reach_eq hρ none (by simp [hpath])
      simp only [if_neg hpath, hoperand.sameLook.sense_eq h]
  | @after _ _ o operand operand' p hoperand =>
    rw [reach.eq_def, reach.eq_def w ρ before]
    simp only
    by_cases hpath : o.name = pathOperator
    · have h := hoperand.reach_eq hρ before (by simp [hpath, hhead])
      simp only [if_pos hpath, h]
    · have h := hoperand.reach_eq hρ none (by simp [hpath])
      simp only [if_neg hpath, hoperand.sameLook.sense_eq h]
  | @group _ _ inner inner' p hinner =>
    cases before with
    | none =>
      rw [reach, reach, hinner.sameLook.sense_eq (hinner.reach_eq hρ none rfl)]
    | some r => rfl
  | @call _ _ function arguments arguments' p harguments =>
    cases before with
    | none => rw [reach, reach, harguments.readArguments_eq hρ]
    | some r => rw [reach, reach, harguments.readArguments_eq hρ]
  | @index _ n n' indexes indexes' p hnames hindexes =>
    cases before with
    | none =>
      rw [reach, reach, hρ n n' hnames, hindexes.readArguments_eq hρ]
    | some r => simp at hhead
  | @memberIndex _ n indexes indexes' p hindexes =>
    cases before with
    | none => simp at hhead
    | some r => rw [reach, reach, hindexes.readArguments_eq hρ]
  | lambda => rfl

theorem Alike.interpretFor_eq {w : World} {R : String → String → Prop} {isHead : Bool}
    {e e' : Expr} (h : Alike w.vocabulary R isHead e e') {ρ ρ' : Environment}
    (hρ : Environment.Corresponds R ρ ρ') (item : Node × Nat) :
    e'.interpretFor w ρ' item = e.interpretFor w ρ item := by
  cases h with
  | @lambda _ _ parameters parameters' body body' p _ hbody =>
    rw [interpretFor, interpretFor, hbody.sameLook.sense_eq
      (hbody.reach_eq (hρ.enter parameters parameters' item) none rfl)]
  | same | name | number | text | binary | before | after | group | call | index | memberIndex =>
    rfl

theorem AllAlike.readArguments_eq {w : World} {R : String → String → Prop} {es es' : List Expr}
    (h : AllAlike w.vocabulary R es es') {ρ ρ' : Environment}
    (hρ : Environment.Corresponds R ρ ρ') : readArguments w ρ' es' = readArguments w ρ es := by
  cases h with
  | nil => rfl
  | cons he hes =>
    rw [readArguments, readArguments, he.sameLook.sense_eq (he.reach_eq hρ none rfl),
      hes.readArguments_eq hρ]
    simp only [he.interpretFor_eq hρ]

end

theorem AllAlike.length_eq {R : String → String → Prop} {es es' : List Expr}
    (h : AllAlike v R es es') : es.length = es'.length := by
  induction es generalizing es' with
  | nil =>
    cases h
    rfl
  | cons e es ih =>
    cases h with
    | cons _ hes => rw [List.length_cons, List.length_cons, ih hes]

end Expr

/-! ### Acceptance -/

theorem FunctionMeaning.build?_of_length {meaning : FunctionMeaning} {p : Position}
    {fs fs' : List Formula} {f : Formula} (h : meaning.build? p fs = some f)
    (hlength : fs.length = fs'.length) : ∃ f', meaning.build? p fs' = some f' := by
  unfold build? at h
  split at h
  · obtain ⟨a, rfl⟩ := List.length_eq_one_iff.1 hlength.symm
    exact ⟨_, rfl⟩
  · obtain ⟨a, b, rfl⟩ := List.length_eq_two.1 hlength.symm
    exact ⟨_, rfl⟩
  · match fs', hlength with
    | a :: b :: rest, _ => exact ⟨_, rfl⟩
  · obtain ⟨a, b, c, rfl⟩ := List.length_eq_three.1 hlength.symm
    exact ⟨_, rfl⟩
  · obtain rfl := List.length_eq_zero_iff.1 hlength.symm
    exact ⟨_, rfl⟩
  · exact ⟨_, rfl⟩
  · simp at h

theorem Naming.compileText_congr {s s' : Naming} (h : s'.dialect = s.dialect) (content : String)
    (p : Position) : s'.compileText content p = s.compileText content p := by
  unfold compileText vocabulary
  rw [h]

theorem Naming.compileNumber_congr {s s' : Naming} (h : s'.dialect = s.dialect) (digits : String)
    (p : Position) : s'.compileNumber digits p = s.compileNumber digits p := by
  unfold compileNumber vocabulary
  rw [h]

theorem Chain.exists_of_isNone {before : Option Chain} (h : before.isNone = false) :
    ∃ chain, before = some chain :=
  Option.isSome_iff_exists.1 (Option.isNone_eq_false_iff.1 h)

theorem Compiles.alike {s s' : Naming} {e e' : Expr} {f : Formula} (h : Compiles s e f)
    (hlook : e.SameLook s.vocabulary e')
    (hlinks : ∀ {c}, Links s none e c → ∃ c', Links s' none e' c') : ∃ f', Compiles s' e' f' := by
  cases h with
  | sealed hloose hc =>
    obtain ⟨c', hc'⟩ := hlinks hc
    exact ⟨_, .sealed (hlook.isLoosePath.trans hloose) hc'⟩

mutual

/-- What is alike is accepted alike. What the chain before an expression is made of does not decide
whether the expression goes on with it. -/
theorem Links.alike {s s' : Naming} {R : String → String → Prop} {isHead : Bool}
    {before before' : Option Chain} {e e' : Expr} {c : Chain} (h : Links s before e c)
    (halike : e.Alike s.vocabulary R isHead e') (hs : s'.dialect = s.dialect)
    (hbefore : before'.isNone = before.isNone) (hhead : isHead = before.isNone) :
    ∃ c', Links s' before' e' c' := by
  have hv : s'.vocabulary = s.vocabulary := congrArg Dialect.vocabulary hs
  -- one case for each rule by which `e` is accepted; `e'` is accepted by the same one
  cases h with
  | name n p =>
    obtain rfl := Option.isNone_iff_eq_none.1 hbefore
    cases halike with
    | same | name => exact ⟨_, .name _ p⟩
  | @memberName _ b n p =>
    obtain ⟨b', rfl⟩ := Chain.exists_of_isNone hbefore
    cases halike with
    | same => exact ⟨_, .memberName n p⟩
    | name => simp at hhead
  | text hf =>
    obtain rfl := Option.isNone_iff_eq_none.1 hbefore
    cases halike with
    | text => exact ⟨_, .text ((s.compileText_congr hs _ _).trans hf)⟩
  | @memberText _ b content p =>
    obtain ⟨b', rfl⟩ := Chain.exists_of_isNone hbefore
    cases halike with
    | text => exact ⟨_, .memberText content p⟩
  | number hf =>
    obtain rfl := Option.isNone_iff_eq_none.1 hbefore
    cases halike with
    | number => exact ⟨_, .number ((s.compileNumber_congr hs _ _).trans hf)⟩
  | index hfs =>
    obtain rfl := Option.isNone_iff_eq_none.1 hbefore
    cases halike with
    | index _ _ hall =>
      obtain ⟨fs', hfs'⟩ := hfs.alike hall hs
      exact ⟨_, .index hfs'⟩
    | memberIndex => simp at hhead
  | memberIndex hfs =>
    obtain ⟨b', rfl⟩ := Chain.exists_of_isNone hbefore
    cases halike with
    | index => simp at hhead
    | memberIndex _ hall =>
      obtain ⟨fs', hfs'⟩ := hfs.alike hall hs
      exact ⟨_, .memberIndex hfs'⟩
  | group hf =>
    obtain rfl := Option.isNone_iff_eq_none.1 hbefore
    cases halike with
    | group _ hinner =>
      obtain ⟨f', hf'⟩ := hf.alike hinner.sameLook fun hc => hc.alike hinner hs rfl rfl
      exact ⟨_, .group hf'⟩
  | looseBefore hpath hc =>
    cases halike with
    | before _ hoperand =>
      obtain ⟨c', hc'⟩ := hc.alike hoperand hs hbefore (by simp [hpath, hhead])
      exact ⟨_, .looseBefore hpath hc'⟩
  | looseAfter hpath hc =>
    cases halike with
    | after _ hoperand =>
      obtain ⟨c', hc'⟩ := hc.alike hoperand hs hbefore (by simp [hpath, hhead])
      exact ⟨_, .looseAfter hpath hc'⟩
  | before hpath hmeaning hf =>
    obtain rfl := Option.isNone_iff_eq_none.1 hbefore
    cases halike with
    | before _ hoperand =>
      obtain ⟨f', hf'⟩ := hf.alike hoperand.sameLook fun hc =>
        hc.alike hoperand hs rfl (by simp [hpath])
      exact ⟨_, .before hpath (hv ▸ hmeaning) hf'⟩
  | after hpath hmeaning hf =>
    obtain rfl := Option.isNone_iff_eq_none.1 hbefore
    cases halike with
    | after _ hoperand =>
      obtain ⟨f', hf'⟩ := hf.alike hoperand.sameLook fun hc =>
        hc.alike hoperand hs rfl (by simp [hpath])
      exact ⟨_, .after hpath (hv ▸ hmeaning) hf'⟩
  | path hpath hleft hright =>
    cases halike with
    | binary _ hl hr =>
      obtain ⟨c', hc'⟩ := hleft.alike hl hs hbefore (by simp [hpath, hhead])
      have hchain : (some c').isNone = false := rfl
      obtain ⟨_, hc''⟩ := hright.alike hr hs hchain (by simp [hpath])
      exact ⟨_, .path hpath hc' hc''⟩
  | binary hpath hmeaning hf hg =>
    obtain rfl := Option.isNone_iff_eq_none.1 hbefore
    cases halike with
    | binary _ hl hr =>
      obtain ⟨f', hf'⟩ := hf.alike hl.sameLook fun hc => hc.alike hl hs rfl (by simp [hpath])
      obtain ⟨g', hg'⟩ := hg.alike hr.sameLook fun hc => hc.alike hr hs rfl (by simp [hpath])
      exact ⟨_, .binary hpath (hv ▸ hmeaning) hf' hg'⟩
  | aggregate hmeaning harity hf =>
    obtain rfl := Option.isNone_iff_eq_none.1 hbefore
    cases halike with
    | call _ hall =>
      obtain _ | ⟨hcollection, _ | _⟩ := hall
      obtain ⟨f', hf'⟩ := hf.alike hcollection.sameLook fun hc => hc.alike hcollection hs rfl rfl
      exact ⟨_, .aggregate (hv ▸ hmeaning) harity hf'⟩
  | aggregateBy hmeaning harity hf hbody =>
    obtain rfl := Option.isNone_iff_eq_none.1 hbefore
    cases halike with
    | call _ hall =>
      obtain _ | ⟨hcollection, _ | ⟨hlambda, _ | _⟩⟩ := hall
      obtain ⟨f', hf'⟩ := hf.alike hcollection.sameLook fun hc => hc.alike hcollection hs rfl rfl
      obtain ⟨body', hbody'⟩ := hbody.alike hlambda hs
      exact ⟨_, .aggregateBy (hv ▸ hmeaning) harity hf' hbody'⟩
  | call hmeaning hne hknown hfs hbuild =>
    obtain rfl := Option.isNone_iff_eq_none.1 hbefore
    cases halike with
    | call _ hall =>
      obtain ⟨fs', hfs'⟩ := hfs.alike hall hs
      rw [hall.length_eq] at hknown
      have hlength := hfs.length_eq.symm.trans (hall.length_eq.trans hfs'.length_eq)
      obtain ⟨f', hf'⟩ := FunctionMeaning.build?_of_length hbuild hlength
      exact ⟨_, .call (hv ▸ hmeaning) hne hknown hfs' hf'⟩
  | through hmeaning hbody =>
    obtain ⟨b', rfl⟩ := Chain.exists_of_isNone hbefore
    cases halike with
    | call _ hall =>
      obtain _ | ⟨hlambda, _ | _⟩ := hall
      obtain ⟨body', hbody'⟩ := hbody.alike hlambda hs
      exact ⟨_, .through (hv ▸ hmeaning) hbody'⟩
  | arrange hmeaning =>
    obtain ⟨b', rfl⟩ := Chain.exists_of_isNone hbefore
    cases halike with
    | call _ hall =>
      cases hall with
      | nil => exact ⟨_, .arrange (hv ▸ hmeaning)⟩
  | positions hmeaning hfs =>
    obtain ⟨b', rfl⟩ := Chain.exists_of_isNone hbefore
    cases halike with
    | call _ hall =>
      obtain ⟨fs', hfs'⟩ := hfs.alike hall hs
      cases hall with
      | cons => exact ⟨_, .positions (hv ▸ hmeaning) hfs'⟩
  | custom hmeaning =>
    obtain ⟨b', rfl⟩ := Chain.exists_of_isNone hbefore
    cases halike with
    | call _ hall =>
      cases hall with
      | nil => exact ⟨_, .custom (hv ▸ hmeaning)⟩

theorem CompilesAll.alike {s s' : Naming} {R : String → String → Prop} {es es' : List Expr}
    {fs : List Formula} (h : CompilesAll s es fs) (halike : Expr.AllAlike s.vocabulary R es es')
    (hs : s'.dialect = s.dialect) : ∃ fs', CompilesAll s' es' fs' := by
  cases h with
  | nil =>
    cases halike with
    | nil => exact ⟨[], .nil⟩
  | cons hf hfs =>
    cases halike with
    | cons he hes =>
      obtain ⟨f', hf'⟩ := hf.alike he.sameLook fun hc => hc.alike he hs rfl rfl
      obtain ⟨fs', hfs'⟩ := hfs.alike hes hs
      exact ⟨_, .cons hf' hfs'⟩

theorem CompilesLambda.alike {s s' : Naming} {R : String → String → Prop} {isHead : Bool}
    {function : String} {e e' : Expr} {f : Formula} (h : CompilesLambda s function e f)
    (halike : e.Alike s.vocabulary R isHead e') (hs : s'.dialect = s.dialect) :
    ∃ f', CompilesLambda s' function e' f' := by
  cases h with
  | @lambda _ _ parameters body p _ hsome hcount hf =>
    cases halike with
    | @lambda _ _ _ parameters' _ body' _ hlength hbody =>
      -- the words are the same inside of a lambda
      have hinner : (s'.enter (parameters'.map (·.name))).dialect =
        (s.enter (parameters.map (·.name))).dialect := hs
      obtain ⟨f', hf'⟩ := hf.alike hbody.sameLook fun {c} (hc : Links (s.enter _) none _ c) =>
        hc.alike hbody hinner rfl rfl
      refine ⟨f', .lambda ?_ (hlength ▸ hcount) hf'⟩
      intro hnone
      rw [hnone, List.length_nil, List.length_eq_zero_iff] at hlength
      exact hsome hlength

end

end DocQuery
