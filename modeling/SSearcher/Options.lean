import SSearcher.Runs
import Mathlib.Data.List.DropRight
set_option autoImplicit false

/-! The option loop of parse_options. getopt_long delivers the command line as a
sequence of options. -/
namespace SSearcher
open Runs

/-- `struct option`. `flag` tells whether it points to `opt.str_matching_algo` or is NULL. -/
structure LongOption where
  name : String
  hasArg : Bool
  flag : Bool
  val : Nat

def longopts : List LongOption := [⟨"kmp",false,true,0⟩,⟨"file",true,false,0⟩]

def smAlgoKmp : Nat := 0

/-- The fields of `cli_options` that the loop sets. -/
structure CliOptions where
  strMatchingAlgo : Nat
  inputFile : Option String
  listMatchingFiles : Bool

def noOptions : CliOptions := ⟨0,none,false⟩

inductive Arg where
  | l : Arg
  | kmp : Arg
  | file : String → Arg
  deriving DecidableEq, Repr

/-- `isSet` tells whether getopt_long has stored the value of `opt_idx`. -/
structure ParseLoop where
  optIdx : Int
  isSet : Bool
  optarg : Option String
  opt : CliOptions

/-- `index` is an access to `longopts`, with `opt_idx` and whether it has been set. -/
inductive OptEvent where
  | index : Int → Bool → OptEvent
  | print : String → OptEvent
  | usage : OptEvent
  deriving DecidableEq, Repr

/-- getopt_long for the long option `o` at index `i`: the value it returns and what
it stores. -/
def longOption (s : ParseLoop) (i : Nat) (o : LongOption) (arg : Option String) :
    Nat × ParseLoop :=
  if o.flag then
    (0,⟨i,true,arg,{ s.opt with strMatchingAlgo := o.val }⟩)
  else
    (o.val,⟨i,true,arg,s.opt⟩)

def getoptLong (s : ParseLoop) : Arg → Nat × ParseLoop
  | .l => ('l'.toNat,{ s with optarg := none })
  | .kmp => longOption s 0 longopts[0] none
  | .file x => longOption s 1 longopts[1] (some x)

/-- The program ends here. -/
def printUsage {α : Type} : Run OptEvent α := do
  .emit .usage
  .stuck

def longoptName (s : ParseLoop) : Run OptEvent String := do
  .emit (.index s.optIdx s.isSet)
  if s.optIdx < 0 then .stuck
  else match longopts[s.optIdx.toNat]? with
    | none => .stuck
    | some o => return o.name

/-- `case 0` -/
def caseLong (s : ParseLoop) : Run OptEvent ParseLoop := do
  let name ← longoptName s
  if name = "file" then
    return { s with opt := { s.opt with inputFile := s.optarg } }
  else if s.opt.strMatchingAlgo = smAlgoKmp then do
    .emit (.print "using KMP algorithm\n")
    return s
  else
    return s

/-- `case 'l'`, which has no break. -/
def caseList (s : ParseLoop) : Run OptEvent ParseLoop := do
  .emit (.print "print file list only\n")
  caseLong { s with opt := { s.opt with listMatchingFiles := true } }

def parseSwitch (ch : Nat) (s : ParseLoop) : Run OptEvent ParseLoop :=
  if ch = '?'.toNat then printUsage
  else if ch = 'l'.toNat then caseList s
  else if ch = 0 then caseLong s
  else printUsage

def parseStep (s : ParseLoop) (a : Arg) : Run OptEvent ParseLoop :=
  parseSwitch (getoptLong s a).1 (getoptLong s a).2

def parseLoop (s : ParseLoop) : List Arg → Run OptEvent ParseLoop
  | [] => return s
  | a::as => do
    let s ← parseStep s a
    parseLoop s as

/-- The option loop of parse_options; `i` is what the uninitialised `opt_idx` holds. -/
def parseOptions (i : Int) (as : List Arg) : Run OptEvent ParseLoop :=
  parseLoop ⟨i,false,none,noOptions⟩ as

def Arg.path? : Arg → Option String
  | .file x => some x
  | _ => none

def lastFile (as : List Arg) : Option String := (as.filterMap Arg.path?).getLast?

/-- The options behind the last `--file`, or all of them if there is none. -/
def afterLastFile (as : List Arg) : List Arg := as.rtakeWhile fun a => a.path?.isNone

def IndexSet (e : OptEvent) : Prop := ∀ i, e ≠ .index i false

/-- Each option has its own effect, wherever it stands. -/
def Independent (i : Int) (as : List Arg) : Prop :=
  Run.Only IndexSet (parseOptions i as) ∧
  ∃ s, (parseOptions i as).val = some s ∧
    (s.opt.listMatchingFiles = true ↔ .l ∈ as) ∧ s.opt.inputFile = lastFile as

theorem lastFile_concat (as : List Arg) (a : Arg) :
    lastFile (as++[a]) = a.path?.or (lastFile as) := by
  cases a <;> simp [lastFile,Arg.path?]

theorem afterLastFile_concat (as : List Arg) (a : Arg) :
    afterLastFile (as++[a]) = if a.path?.isNone then afterLastFile as++[a] else [] :=
  List.rtakeWhile_concat _ _ _

/-- Once an option has set the index: what the loop has done with the options `as`. -/
structure ParseInv (as : List Arg) (s : ParseLoop) : Prop where
  set : s.isSet = true
  list : s.opt.listMatchingFiles = true ↔ .l ∈ as
  file : s.opt.inputFile = if (afterLastFile as).head? = some .l then none else lastFile as
  idx : s.optIdx = 1 ∧ (∀ a, a ∈ afterLastFile as → a = .l) ∨
    s.optIdx = 0 ∧ .kmp ∈ afterLastFile as

theorem caseLong_kmp {s : ParseLoop} (h : s.optIdx = 0) : (caseLong s).val = some s := by
  by_cases hg : s.opt.strMatchingAlgo = smAlgoKmp <;>
    simp [caseLong,longoptName,longopts,h,hg]

theorem caseLong_file {s : ParseLoop} (h : s.optIdx = 1) :
    (caseLong s).val = some { s with opt := { s.opt with inputFile := s.optarg } } := by
  simp [caseLong,longoptName,longopts,h]

theorem caseLong_only {s : ParseLoop} (h : s.isSet = true) :
    Run.Only IndexSet (caseLong s) := by
  have hemit : ∀ e, IndexSet e → Run.Only IndexSet (Run.emit e) := by
    intro e he
    simpa [Run.Only] using he
  have hprint : ∀ x, IndexSet (.print x) := fun x i => by simp
  refine .bind (.bind (hemit _ fun i => by simp [h]) fun _ _ => .ite ?_ ?_) fun name _ => ?_
  · exact fun _ => .stuck _
  · intro _
    split
    · exact .stuck _
    · exact .pure _ _
  · refine .ite (fun _ => .pure _ _) fun _ => .ite (fun _ => ?_) fun _ => .pure _ _
    exact .bind (hemit _ (hprint _)) fun _ _ => .pure _ _

theorem parseStep_l (s : ParseLoop) : parseStep s .l =
    caseList { s with optarg := none } := rfl

theorem parseStep_kmp (s : ParseLoop) : parseStep s .kmp =
    caseLong ⟨0,true,none,{ s.opt with strMatchingAlgo := 0 }⟩ := rfl

theorem parseStep_file (s : ParseLoop) (x : String) : parseStep s (.file x) =
    caseLong ⟨1,true,some x,s.opt⟩ := rfl

theorem parseStep_only {s : ParseLoop} {a : Arg} (h : s.isSet = true ∨ a ≠ .l) :
    Run.Only IndexSet (parseStep s a) := by
  cases a with
  | l =>
    rw [parseStep_l]
    refine .bind (fun e he i hi => ?_) fun _ _ => caseLong_only (h.resolve_right (by simp))
    rw [hi] at he
    simp at he
  | kmp => exact caseLong_only rfl
  | file x => exact caseLong_only rfl

theorem parseInv_init (i : Int) {a : Arg} (ha : a ≠ .l) :
    ∃ s, (parseStep ⟨i,false,none,noOptions⟩ a).val = some s ∧ ParseInv [a] s := by
  cases a with
  | l => exact absurd rfl ha
  | kmp =>
    refine ⟨_,by rw [parseStep_kmp]; exact caseLong_kmp rfl,rfl,?_,?_,.inr ⟨rfl,?_⟩⟩ <;>
      simp [noOptions,afterLastFile,lastFile,Arg.path?,List.rtakeWhile]
  | file x =>
    refine ⟨_,by rw [parseStep_file]; exact caseLong_file rfl,rfl,?_,?_,.inl ⟨rfl,?_⟩⟩ <;>
      simp [noOptions,afterLastFile,lastFile,Arg.path?,List.rtakeWhile]

theorem caseList_val (s : ParseLoop) : (caseList s).val =
    (caseLong { s with opt := { s.opt with listMatchingFiles := true } }).val := rfl

theorem parseInv_l {as : List Arg} {s : ParseLoop} (h : ParseInv as s) :
    ∃ s', (parseStep s .l).val = some s' ∧ ParseInv (as++[.l]) s' := by
  have hlast : lastFile (as++[.l]) = lastFile as := lastFile_concat as .l
  have hafter : afterLastFile (as++[.l]) = afterLastFile as++[.l] :=
    afterLastFile_concat as .l
  rw [parseStep_l,caseList_val]
  rcases h.idx with ⟨hidx,hall⟩ | ⟨hidx,hkmp⟩
  · have hhead : (afterLastFile as++[Arg.l]).head? = some .l := by
      cases hrest : afterLastFile as with
      | nil => rfl
      | cons a rest => simp [hall a (by simp [hrest])]
    -- the fall-through stores optarg, which is NULL behind a short option
    refine ⟨_,caseLong_file hidx,h.set,by simp,?_,.inl ⟨hidx,?_⟩⟩
    · rw [hafter,if_pos hhead]
    · rw [hafter]
      intro a ha
      rcases List.mem_append.mp ha with ha | ha
      · exact hall a ha
      · exact List.mem_singleton.mp ha
  · have hhead : (afterLastFile as++[Arg.l]).head? = (afterLastFile as).head? :=
      List.head?_append_of_ne_nil _ (List.ne_nil_of_mem hkmp)
    refine ⟨_,caseLong_kmp hidx,h.set,by simp,?_,.inr ⟨hidx,?_⟩⟩
    · rw [hafter,hhead,hlast]
      exact h.file
    · rw [hafter]
      exact List.mem_append_left _ hkmp

theorem parseInv_step {as : List Arg} {s : ParseLoop} (h : ParseInv as s) (a : Arg) :
    ∃ s', (parseStep s a).val = some s' ∧ ParseInv (as++[a]) s' := by
  cases a with
  | l => exact parseInv_l h
  | kmp =>
    have hlast : lastFile (as++[.kmp]) = lastFile as := lastFile_concat as .kmp
    have hafter : afterLastFile (as++[.kmp]) = afterLastFile as++[.kmp] :=
      afterLastFile_concat as .kmp
    have hhead : (afterLastFile as++[Arg.kmp]).head? = some .l ↔
        (afterLastFile as).head? = some .l := by
      cases afterLastFile as <;> simp
    rw [parseStep_kmp]
    refine ⟨_,caseLong_kmp rfl,rfl,?_,?_,.inr ⟨rfl,?_⟩⟩
    · simpa using h.list
    · simp only [hafter,hhead,hlast]
      exact h.file
    · simp [hafter]
  | file x =>
    have hlast : lastFile (as++[.file x]) = some x := lastFile_concat as (.file x)
    have hafter : afterLastFile (as++[.file x]) = [] := afterLastFile_concat as (.file x)
    rw [parseStep_file]
    refine ⟨_,caseLong_file rfl,rfl,?_,?_,.inl ⟨rfl,?_⟩⟩
    · simpa using h.list
    · simp [hafter,hlast]
    · simp [hafter]

theorem parseLoop_run {as : List Arg} {s : ParseLoop} (h : ParseInv as s) (bs : List Arg) :
    Run.Only IndexSet (parseLoop s bs) ∧
      ∃ s', (parseLoop s bs).val = some s' ∧ ParseInv (as++bs) s' := by
  induction bs generalizing as s with
  | nil => exact ⟨.pure _ _,s,rfl,by simpa using h⟩
  | cons b bs ih =>
    obtain ⟨s₁,hstep,h₁⟩ := parseInv_step h b
    obtain ⟨honly,s',hval,h'⟩ := ih h₁
    refine ⟨.bind (parseStep_only (.inl h.set)) fun s₂ h₂ => ?_,s',?_,by simpa using h'⟩
    · obtain rfl := Option.some.inj (hstep.symm.trans h₂)
      exact honly
    · simp [parseLoop,hstep,hval]

theorem parseOptions_run (i : Int) {a : Arg} (ha : a ≠ .l) (as : List Arg) :
    Run.Only IndexSet (parseOptions i (a::as)) ∧
      ∃ s, (parseOptions i (a::as)).val = some s ∧ ParseInv (a::as) s := by
  obtain ⟨s₁,hstep,h₁⟩ := parseInv_init i ha
  obtain ⟨honly,s,hval,h⟩ := parseLoop_run h₁ as
  refine ⟨.bind (parseStep_only (.inr ha)) fun s₂ h₂ => ?_,s,?_,h⟩
  · obtain rfl := Option.some.inj (hstep.symm.trans h₂)
    exact honly
  · simp [parseOptions,parseLoop,hstep,hval]

theorem parseOptions_unset (i : Int) (as : List Arg) :
    .index i false ∈ (parseOptions i (.l::as)).log := by
  refine Run.mem_log_bind.mpr (.inl ?_)
  refine Run.mem_log_bind.mpr (.inr ⟨(),rfl,?_⟩)
  refine Run.mem_log_bind.mpr (.inl ?_)
  exact Run.mem_log_bind.mpr (.inl (List.mem_singleton.mpr rfl))

theorem lastFile_ne_none {as : List Arg} (h : afterLastFile as ≠ as) : lastFile as ≠ none := by
  intro hnone
  rw [lastFile,List.getLast?_eq_none_iff] at hnone
  refine h (List.rtakeWhile_eq_self_iff.mpr fun a ha => ?_)
  exact Option.isNone_iff_eq_none.mpr (List.filterMap_eq_nil_iff.mp hnone a ha)

/-- The options do not interfere exactly when neither the command line nor what
follows its last `--file` begins with `-l`. -/
theorem independent_iff (i : Int) (as : List Arg) :
    Independent i as ↔ as.head? ≠ some .l ∧ (afterLastFile as).head? ≠ some .l := by
  cases as with
  | nil =>
    refine iff_of_true ⟨.pure _ _,_,rfl,?_,?_⟩ ?_ <;>
      simp [noOptions,lastFile,afterLastFile]
  | cons a as =>
    constructor
    · rintro ⟨honly,s,hval,-,hfile⟩
      have ha : a ≠ .l := by
        rintro rfl
        exact honly _ (parseOptions_unset i as) i rfl
      refine ⟨by simpa using ha,fun hhead => ?_⟩
      obtain ⟨-,s',hval',h⟩ := parseOptions_run i ha as
      obtain rfl := Option.some.inj (hval.symm.trans hval')
      rw [h.file,if_pos hhead] at hfile
      refine lastFile_ne_none (fun heq => ?_) hfile.symm
      rw [heq,List.head?_cons,Option.some.injEq] at hhead
      exact ha hhead
    · rintro ⟨ha,hhead⟩
      obtain ⟨honly,s,hval,h⟩ := parseOptions_run i (by simpa using ha) as
      refine ⟨honly,s,hval,h.list,?_⟩
      rw [h.file,if_neg hhead]

/-- `-l` alone reads `longopts` at an index nothing has set; behind `--file x` it
takes the file away. -/
theorem listing_interferes : ¬ Independent 0 [.l] ∧ ¬ Independent 0 [.file "x",.l] := by
  constructor
  · rintro ⟨honly,-⟩
    exact honly (.index 0 false) (by decide) 0 rfl
  · rintro ⟨-,s,hval,-,hfile⟩
    have hrun : ((parseOptions 0 [.file "x",.l]).val.map fun s => s.opt.inputFile) =
        some none := rfl
    rw [hval,Option.map_some,hfile] at hrun
    simp [lastFile,Arg.path?] at hrun

end SSearcher
