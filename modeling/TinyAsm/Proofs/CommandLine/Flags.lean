import TinyAsm.CommandLine.Command
import TinyAsm.Proofs.Operand

/-!
# Flags

The flags of a command line are read from the left. Each takes one argument, but for `--limit`,
which also takes the argument behind it, whatever that looks like. So what an argument means
depends on all arguments before it.

This module says what a list of flags is without reading it:

* `RunFlag.Spelled fs args` — the arguments `args` are the flags `fs`, one behind the other;
* `RunFlag.Problem rest e` — the arguments `rest` do not go on with a flag, and `e` says why;
* `Config.asked c fs` — the configuration that the flags `fs` ask for, where `c` stands if they do
  not say anything.

Two facts carry everything else. Flags that stand before other arguments are read off
(`ofFlags_of_spelled`), and every list of arguments consists of flags up to its end or up to a
problem (`exists_spelled_problem`). `Config.readsFlags` collects what follows: flags are accepted
exactly if they are flags to the end, and otherwise the first problem is reported.
-/

namespace TinyAsm

/-! ### Unsigned numerals -/

namespace Decimal

/-- **An unsigned numeral and its value**: digits, with at most a plus before them. -/
inductive Unsigned : List Char → Nat → Prop where
  | digits {cs : List Char} (h : Digits cs) : Unsigned cs (placeValue cs)
  | plus {cs : List Char} (h : Digits cs) : Unsigned ('+' :: cs) (placeValue cs)

variable {cs : List Char} {n : Nat}

/-- A plus is no digit. -/
theorem not_digits_plus (cs : List Char) : ¬Digits ('+' :: cs) := by
  intro h
  have hplus : '0' ≤ '+' ∧ '+' ≤ '9' := h.2 '+' List.mem_cons_self
  exact absurd hplus (by decide)

/-- **A numeral is read as a count** if its value fits 64 bits. -/
theorem count?_eq_some_iff : count? cs = some n ↔ Unsigned cs n ∧ n < UInt64.size := by
  unfold count?
  rw [Option.filter_eq_some_iff, natural?_eq_some_iff, decide_eq_true_iff]
  refine and_congr_left fun _ => ?_
  -- With a plus and without one; a plus is no digit, and so only one of the two fits.
  split
  · next cs =>
    refine ⟨?_, ?_⟩
    · rintro ⟨h, rfl⟩
      exact .plus h
    · intro h
      cases h with
      | digits h => exact absurd h (not_digits_plus cs)
      | plus h => exact ⟨h, rfl⟩
  · next hplus =>
    refine ⟨?_, ?_⟩
    · rintro ⟨h, rfl⟩
      exact .digits h
    · intro h
      cases h with
      | digits h => exact ⟨h, rfl⟩
      | @plus cs h => exact absurd rfl (hplus cs)

end Decimal

/-! ### Flags and what they ask for -/

/-- A flag of a command line. -/
inductive RunFlag where
  | trace
  | noLimit
  | limit (n : Nat)
deriving DecidableEq, Repr

namespace RunFlag

/-- **The arguments of one flag.** A limit is an unsigned numeral whose value fits 64 bits. -/
inductive Written : RunFlag → List String → Prop where
  | trace : Written .trace ["--trace"]
  | noLimit : Written .noLimit ["--no-limit"]
  | limit {numeral : String} {n : Nat} (h : Decimal.Unsigned numeral.toList n)
      (hn : n < UInt64.size) : Written (.limit n) ["--limit", numeral]

/-- **The arguments of flags**, one behind the other. -/
inductive Spelled : List RunFlag → List String → Prop where
  | nil : Spelled [] []
  | cons {f : RunFlag} {fs : List RunFlag} {front back : List String} (first : Written f front)
      (others : Spelled fs back) : Spelled (f :: fs) (front ++ back)

/-- **Arguments that do not go on with a flag**, and what is wrong with them. -/
inductive Problem : List String → CommandError → Prop where
  /-- The first argument is none of the flags. -/
  | unknown {argument : String} {more : List String}
      (h : argument ≠ "--trace" ∧ argument ≠ "--no-limit" ∧ argument ≠ "--limit") :
      Problem (argument :: more) (.unknownArgument argument)
  /-- There is no limit behind the flag for it. -/
  | missing : Problem ["--limit"] .usage
  /-- What stands there is no limit, even if it has the spelling of a flag. -/
  | invalid {argument : String} {more : List String}
      (h : ¬∃ n, Decimal.Unsigned argument.toList n ∧ n < UInt64.size) :
      Problem ("--limit" :: argument :: more) (.invalidLimit argument)

/-- What a flag says of the step limit, if it says anything. -/
def limit? : RunFlag → Option (Option Nat)
  | trace => none
  | noLimit => some none
  | limit n => some (some n)

end RunFlag

/-- **The configuration that flags ask for.** Of the flags on the step limit the last one counts,
and a run is traced if one of the flags says so. -/
def Config.asked (c : Config) (fs : List RunFlag) : Config where
  stepLimit := (fs.filterMap RunFlag.limit?).getLast?.getD c.stepLimit
  trace := c.trace || fs.contains .trace

namespace Config

open RunFlag (Written Spelled Problem)

variable {c c' : Config} {f f' : RunFlag} {fs fs' : List RunFlag}
  {args front front' back back' rest : List String} {e : CommandError}

theorem asked_nil (c : Config) : c.asked [] = c := by
  rw [asked, List.contains_nil, Bool.or_false]
  rfl

/-- Flags ask for the same together as one after the other. -/
theorem asked_cons (c : Config) (f : RunFlag) (fs : List RunFlag) :
    c.asked (f :: fs) = (c.asked [f]).asked fs := by
  unfold asked
  congr 1
  · -- The limit is that of the last flag on it, and the trace is asked for by any.
    cases f <;> simp [RunFlag.limit?, List.getLast?_cons]
  · simp [Bool.or_assoc]

/-! ### Reading flags -/

/-- **A flag is read off** the arguments. -/
theorem ofFlags_of_written (h : Written f front) (c : Config) (back : List String) :
    c.ofFlags (front ++ back) = (c.asked [f]).ofFlags back := by
  cases h with
  | trace => simp [ofFlags, asked, RunFlag.limit?]
  | noLimit => simp [ofFlags, asked, RunFlag.limit?]
  | @limit numeral n h hn =>
    have hcount : Decimal.count? numeral.toList = some n := Decimal.count?_eq_some_iff.2 ⟨h, hn⟩
    simp [ofFlags, hcount, asked, RunFlag.limit?]

/-- **Flags are read off** the arguments, and leave what they ask for. -/
theorem ofFlags_of_spelled (h : Spelled fs front) (c : Config) (back : List String) :
    c.ofFlags (front ++ back) = (c.asked fs).ofFlags back := by
  induction h generalizing c with
  | nil => rw [asked_nil, List.nil_append]
  | @cons f fs front front' first _ ih =>
    calc c.ofFlags (front ++ front' ++ back)
        = (c.asked [f]).ofFlags (front' ++ back) := by
          rw [List.append_assoc, ofFlags_of_written first]
      _ = (c.asked (f :: fs)).ofFlags back := by rw [ih, ← asked_cons]

/-- **A problem is reported** as it is. -/
theorem ofFlags_of_problem (h : Problem rest e) (c : Config) : c.ofFlags rest = .error e := by
  cases h with
  | @unknown argument more h =>
    obtain ⟨htrace, hnoLimit, hlimit⟩ := h
    -- What is left to be seen is that no earlier branch of the reader takes the argument.
    rw [ofFlags]
    · exact htrace
    · exact hnoLimit
    · exact fun _ _ h _ => hlimit h
    · exact fun h _ => hlimit h
  | missing => rfl
  | @invalid argument more h =>
    have hcount : Decimal.count? argument.toList = none := by
      refine Option.eq_none_iff_forall_ne_some.2 fun n hn => h ⟨n, ?_⟩
      exact Decimal.count?_eq_some_iff.1 hn
    rw [ofFlags, hcount]

/-- Arguments go on with a flag, or there is a problem. -/
theorem exists_written_or_problem (hne : args ≠ []) :
    (∃ f front back, args = front ++ back ∧ Written f front) ∨ ∃ e, Problem args e := by
  obtain ⟨argument, more, rfl⟩ := List.exists_cons_of_ne_nil hne
  -- The first argument is one of the three flags, or none of them.
  by_cases htrace : argument = "--trace"
  · rw [htrace]
    exact .inl ⟨_, ["--trace"], more, rfl, .trace⟩
  by_cases hnoLimit : argument = "--no-limit"
  · rw [hnoLimit]
    exact .inl ⟨_, ["--no-limit"], more, rfl, .noLimit⟩
  by_cases hlimit : argument = "--limit"
  · rw [hlimit]
    -- Now the meaning of the next argument is fixed, if there is one.
    rcases more with _ | ⟨numeral, more⟩
    · exact .inr ⟨_, .missing⟩
    · by_cases h : ∃ n, Decimal.Unsigned numeral.toList n ∧ n < UInt64.size
      · obtain ⟨n, hn, hsize⟩ := h
        exact .inl ⟨_, ["--limit", numeral], more, rfl, .limit hn hsize⟩
      · exact .inr ⟨_, .invalid h⟩
  · exact .inr ⟨_, .unknown ⟨htrace, hnoLimit, hlimit⟩⟩

theorem length_pos_of_written (h : Written f front) : 0 < front.length := by
  cases h with
  | trace | noLimit | limit => exact Nat.succ_pos _

/-- **Arguments are flags** up to their end or up to the first problem. -/
theorem exists_spelled_problem (args : List String) :
    ∃ fs front rest, args = front ++ rest ∧ Spelled fs front ∧
      (rest = [] ∨ ∃ e, Problem rest e) := by
  -- Every flag takes an argument at least.
  induction hn : args.length using Nat.strongRecOn generalizing args with
  | ind n ih =>
    by_cases hne : args = []
    · exact ⟨[], [], args, rfl, .nil, .inl hne⟩
    rcases exists_written_or_problem hne with ⟨f, front, back, rfl, first⟩ | problem
    · have hshorter : back.length < n := by
        have hfront : 0 < front.length := length_pos_of_written first
        rw [List.length_append] at hn
        omega
      obtain ⟨fs, front', rest, rfl, others, hrest⟩ := ih _ hshorter back rfl
      exact ⟨f :: fs, front ++ front', rest, (List.append_assoc ..).symm,
        .cons first others, hrest⟩
    · exact ⟨[], [], args, rfl, .nil, .inr problem⟩

/-! ### Which flags are accepted -/

theorem ofFlags_eq_asked (h : Spelled fs args) (c : Config) :
    c.ofFlags args = .ok (c.asked fs) := by
  have hread := ofFlags_of_spelled h c []
  rwa [List.append_nil] at hread

/-- **Flags are accepted** if they are flags to the end. -/
theorem ofFlags_eq_ok_iff :
    c.ofFlags args = .ok c' ↔ ∃ fs, Spelled fs args ∧ c' = c.asked fs := by
  refine ⟨fun h => ?_, ?_⟩
  · obtain ⟨fs, front, rest, rfl, hfront, rfl | ⟨e, problem⟩⟩ := exists_spelled_problem args
    · rw [List.append_nil] at h ⊢
      rw [ofFlags_eq_asked hfront] at h
      exact ⟨fs, hfront, (Except.ok.inj h).symm⟩
    · -- A problem would have been reported.
      rw [ofFlags_of_spelled hfront, ofFlags_of_problem problem] at h
      contradiction
  · rintro ⟨fs, h, rfl⟩
    exact ofFlags_eq_asked h c

/-- **The first problem is reported**, and nothing else. -/
theorem ofFlags_eq_error_iff :
    c.ofFlags args = .error e ↔
      ∃ fs front rest, args = front ++ rest ∧ Spelled fs front ∧ Problem rest e := by
  refine ⟨fun h => ?_, ?_⟩
  · obtain ⟨fs, front, rest, rfl, hfront, hrest⟩ := exists_spelled_problem args
    rw [ofFlags_of_spelled hfront] at h
    rcases hrest with rfl | ⟨e', problem⟩
    · contradiction
    · rw [ofFlags_of_problem problem] at h
      obtain rfl : e' = e := Except.error.inj h
      exact ⟨fs, front, rest, rfl, hfront, problem⟩
  · rintro ⟨fs, front, rest, rfl, hfront, problem⟩
    rw [ofFlags_of_spelled hfront, ofFlags_of_problem problem]

/-! ### Flags in another order -/

/-- What stands first says which flag it is, and where the next one starts. -/
theorem eq_of_written_append (h : Written f front) (h' : Written f' front')
    (heq : front ++ back = front' ++ back') : f = f' ∧ back = back' := by
  cases h with
  | trace =>
    cases h' with
    | trace => exact ⟨rfl, (List.cons.inj heq).2⟩
    | noLimit | limit => exact absurd (List.cons.inj heq).1 (by decide)
  | noLimit =>
    cases h' with
    | noLimit => exact ⟨rfl, (List.cons.inj heq).2⟩
    | trace | limit => exact absurd (List.cons.inj heq).1 (by decide)
  | @limit numeral n hn hsize =>
    cases h' with
    | trace | noLimit => exact absurd (List.cons.inj heq).1 (by decide)
    | @limit numeral' n' hn' hsize' =>
      obtain ⟨rfl, hback⟩ := List.cons.inj (List.cons.inj heq).2
      -- A numeral has one value.
      have hvalue : some n = some n' := by
        rw [← Decimal.count?_eq_some_iff.2 ⟨hn, hsize⟩, Decimal.count?_eq_some_iff.2 ⟨hn', hsize'⟩]
      exact ⟨congrArg RunFlag.limit (Option.some.inj hvalue), hback⟩

/-- **Arguments are flags in one way only.** -/
theorem eq_of_spelled (h : Spelled fs args) (h' : Spelled fs' args) : fs = fs' := by
  induction h generalizing fs' with
  | nil =>
    generalize hargs : ([] : List String) = args at h'
    cases h' with
    | nil => rfl
    | @cons f fs front back first _ =>
      -- Flags take arguments, and here there are none.
      have hpos : 0 < front.length := length_pos_of_written first
      rw [(List.append_eq_nil_iff.1 hargs.symm).1] at hpos
      exact absurd hpos (Nat.lt_irrefl 0)
  | @cons f fs front back first others ih =>
    generalize hargs : front ++ back = args at h'
    cases h' with
    | nil =>
      have hpos : 0 < front.length := length_pos_of_written first
      rw [(List.append_eq_nil_iff.1 hargs).1] at hpos
      exact absurd hpos (Nat.lt_irrefl 0)
    | @cons f' fs' front' back' first' others' =>
      -- The first flag is the same, and so is what comes behind it.
      obtain ⟨rfl, rfl⟩ := eq_of_written_append first first' hargs
      rw [ih others']

/-- The flags for a trace do not say anything of the limit. -/
theorem filterMap_limit?_filter (fs : List RunFlag) :
    (fs.filter (· ≠ .trace)).filterMap RunFlag.limit? = fs.filterMap RunFlag.limit? := by
  rw [List.filterMap_filter]
  refine List.filterMap_congr fun f _ => ?_
  cases f with
  | trace => rfl
  | noLimit | limit => rfl

/-- **The flags for a trace can stand anywhere** among the others. -/
theorem asked_eq_of_filter_eq (hothers : fs.filter (· ≠ .trace) = fs'.filter (· ≠ .trace))
    (htrace : .trace ∈ fs ↔ .trace ∈ fs') (c : Config) : c.asked fs = c.asked fs' := by
  have hlimit : fs.filterMap RunFlag.limit? = fs'.filterMap RunFlag.limit? := by
    rw [← filterMap_limit?_filter, hothers, filterMap_limit?_filter]
  have hcontains : fs.contains .trace = fs'.contains .trace := by
    rw [Bool.eq_iff_iff, List.contains_iff_mem, List.contains_iff_mem]
    exact htrace
  rw [asked, asked, hlimit, hcontains]

/-! ### All together -/

/-- **Flags are read exactly**, from the left, into a configuration that is the default where
they do not say anything. -/
structure ReadsFlags (args : List String) : Prop where
  /-- Accepted are flags to the end, and the configuration is the one that they ask for. -/
  ok_iff : ∀ c, Config.ofFlags {} args = .ok c ↔ ∃ fs, Spelled fs args ∧ c = Config.asked {} fs
  /-- There is only one way to take the arguments as flags. -/
  unique : ∀ fs fs', Spelled fs args → Spelled fs' args → fs = fs'
  /-- Anything else is refused for the first problem behind flags. -/
  error_iff : ∀ e, Config.ofFlags {} args = .error e ↔
    ∃ fs front rest, args = front ++ rest ∧ Spelled fs front ∧ Problem rest e
  /-- It makes no difference where the flags for a trace stand, as long as there are some or
  none, and the others stand in the same order. -/
  movable : ∀ fs fs' args', Spelled fs args → Spelled fs' args' →
    fs.filter (· ≠ .trace) = fs'.filter (· ≠ .trace) → (.trace ∈ fs ↔ .trace ∈ fs') →
      Config.ofFlags {} args' = Config.ofFlags {} args

theorem readsFlags (args : List String) : ReadsFlags args where
  ok_iff _ := ofFlags_eq_ok_iff
  unique _ _ := eq_of_spelled
  error_iff _ := ofFlags_eq_error_iff
  movable := by
    intro fs fs' args' h h' hothers htrace
    rw [ofFlags_eq_asked h, ofFlags_eq_asked h', asked_eq_of_filter_eq hothers htrace]

/-- A limit is taken for what it is, also if it looks like a flag. -/
example : Config.ofFlags {} ["--trace", "--limit", "+07", "--limit", "--no-limit"] =
    .error (.invalidLimit "--no-limit") := by
  decide +kernel

end Config

end TinyAsm
