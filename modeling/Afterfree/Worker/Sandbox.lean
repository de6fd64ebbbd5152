import Afterfree.Lib.Filter

/-!
# The policy of the replay worker

`sandbox.hpp`: the filter that the worker installs over its own system calls. The numbers are those
of the Linux headers for x86-64.

`restrictWorker_policy`: the verdict of the program on every record, and where its jumps land.
-/

namespace Afterfree.Worker.Sandbox

open Afterfree.Lib.Filter

/-! ### Records -/

/-- `seccomp_data`. -/
structure SeccompData where
  nr : BitVec 32
  arch : BitVec 32
  instructionPointer : BitVec 64
  args : Fin 6 → BitVec 64

/-- The words of a record: its offsets are multiples of four below 64, the low half of a field
first. -/
def SeccompData.word (d : SeccompData) (offset : BitVec 32) : Option (BitVec 32) :=
  if offset.toNat % 4 ≠ 0 then none
  else match offset.toNat / 4 with
    | 0 => some d.nr
    | 1 => some d.arch
    | 2 => some (d.instructionPointer.setWidth 32)
    | 3 => some ((d.instructionPointer >>> 32).setWidth 32)
    | n + 4 =>
      if h : n / 2 < 6 then some ((d.args ⟨n / 2, h⟩ >>> (32 * (n % 2))).setWidth 32) else none

/-- `offsetof(seccomp_data, …)`. -/
abbrev OFFSET_NR : BitVec 32 := 0
abbrev OFFSET_ARCH : BitVec 32 := 4
abbrev OFFSET_ARGS0 : BitVec 32 := 16

theorem word_nr (d : SeccompData) : d.word OFFSET_NR = some d.nr := rfl

theorem word_arch (d : SeccompData) : d.word OFFSET_ARCH = some d.arch := rfl

theorem word_args0 (d : SeccompData) : d.word OFFSET_ARGS0 = some ((d.args 0).setWidth 32) := rfl

/-! ### Constants -/

abbrev AUDIT_ARCH_X86_64 : BitVec 32 := 0xC000003E
abbrev SECCOMP_RET_KILL_PROCESS : BitVec 32 := 0x80000000
abbrev SECCOMP_RET_ERRNO : BitVec 32 := 0x00050000
abbrev SECCOMP_RET_ALLOW : BitVec 32 := 0x7fff0000
abbrev EPERM : BitVec 32 := 1
abbrev ENOSYS : BitVec 32 := 38
abbrev CLONE_THREAD : BitVec 32 := 0x10000
abbrev CLONE_VM : BitVec 32 := 0x100
abbrev SYS_clone : BitVec 32 := 56
abbrev SYS_clone3 : BitVec 32 := 435

/-- `SYS_read`, `SYS_write`, `SYS_sendto`. -/
def channelCalls : List (BitVec 32) := [0, 1, 44]

/-- `SYS_close`, `SYS_mmap`, `SYS_mprotect`, `SYS_munmap`, `SYS_mremap`, `SYS_madvise`, `SYS_brk`,
`SYS_clock_gettime`, `SYS_clock_nanosleep`, `SYS_nanosleep`, `SYS_futex`, `SYS_rt_sigaction`,
`SYS_rt_sigprocmask`, `SYS_rt_sigreturn`, `SYS_sigaltstack`, `SYS_getpid`, `SYS_gettid`,
`SYS_getrusage`, `SYS_getuid`, `SYS_geteuid`, `SYS_set_robust_list`, `SYS_rseq`, `SYS_arch_prctl`,
`SYS_sched_yield`, `SYS_sched_getaffinity`, `SYS_getrandom`, `SYS_exit`, `SYS_exit_group`,
`SYS_restart_syscall`, `SYS_membarrier`, `SYS_uname`, `SYS_readlink`. -/
def admittedCalls : List (BitVec 32) :=
  [3, 9, 10, 11, 25, 28, 12,
   228, 230, 35, 202, 13, 14,
   15, 131, 39, 186,
   98, 102, 107, 273, 334, 158,
   24, 204, 318, 60, 231,
   219, 324, 63, 89]

/-- `denied`. -/
def denied : BitVec 32 := SECCOMP_RET_ERRNO ||| EPERM

/-! ### The program -/

/-- A call on the channel. -/
def channelBlock (channel nr : BitVec 32) : List Instruction :=
  [.equal nr 0 4,
   .load OFFSET_ARGS0,
   .equal channel 0 1,
   .verdict SECCOMP_RET_ALLOW,
   .verdict denied]

/-- Threads are created, processes are not. -/
def cloneBlock : List Instruction :=
  [.equal SYS_clone 0 5,
   .load OFFSET_ARGS0,
   .bits CLONE_THREAD 0 2,
   .bits CLONE_VM 0 1,
   .verdict SECCOMP_RET_ALLOW,
   .verdict denied]

def clone3Block : List Instruction :=
  [.equal SYS_clone3 0 1,
   .verdict (SECCOMP_RET_ERRNO ||| ENOSYS)]

def admittedBlock (nr : BitVec 32) : List Instruction :=
  [.equal nr 0 1,
   .verdict SECCOMP_RET_ALLOW]

/-- The check of the architecture, and the number of the call. -/
def archBlock : List Instruction :=
  [.load OFFSET_ARCH,
   .equal AUDIT_ARCH_X86_64 1 0,
   .verdict SECCOMP_RET_KILL_PROCESS,
   .load OFFSET_NR]

/-- `restrict_worker`: the program that is installed. -/
def restrictWorker (channel : BitVec 32) : List Instruction :=
  archBlock ++ (channelCalls.flatMap (channelBlock channel) ++
    (cloneBlock ++ (clone3Block ++ (admittedCalls.flatMap admittedBlock ++ [.verdict denied]))))

/-- What the kernel does with a call: the accumulator starts at zero. -/
def verdict (channel : BitVec 32) (d : SeccompData) : Option (BitVec 32) :=
  run d.word (restrictWorker channel) 0

/-! ### The policy -/

/-- The calls that the worker may make; of the flags of `clone`, `CLONE_THREAD` is bit 16 and
`CLONE_VM` bit 8. -/
def Admitted (channel : BitVec 32) (d : SeccompData) : Prop :=
  (d.nr ∈ channelCalls ∧ (d.args 0).setWidth 32 = channel) ∨
    (d.nr = SYS_clone ∧ (d.args 0).getLsbD 16 ∧ (d.args 0).getLsbD 8) ∨
    d.nr ∈ admittedCalls

instance instDecidableAdmitted (channel : BitVec 32) (d : SeccompData) :
    Decidable (Admitted channel d) :=
  inferInstanceAs (Decidable (_ ∨ _))

theorem flag_iff (x : BitVec 64) {k : BitVec 32} {i : ℕ} (hi : i < 32)
    (hk : k = BitVec.twoPow 32 i) :
    x.setWidth 32 &&& k ≠ 0 ↔ x.getLsbD i := by
  rw [hk, BitVec.and_twoPow, BitVec.getLsbD_setWidth]
  by_cases h : x.getLsbD i
  · have hne : BitVec.twoPow 32 i ≠ 0#32 := by
      intro he
      have hbit := congrArg (fun y => y.getLsbD i) he
      simp [hi] at hbit
    simpa [h, hi] using hne
  · simp [h]

/-! ### The blocks -/

section Blocks

variable {channel : BitVec 32} {d : SeccompData} {rest : List Instruction} {a : BitVec 32}

theorem run_archBlock : run d.word (archBlock ++ rest) a =
    if d.arch = AUDIT_ARCH_X86_64 then run d.word rest d.nr else some SECCOMP_RET_KILL_PROCESS := by
  simp only [archBlock, List.cons_append, List.nil_append]
  rw [run_load (word_arch d), run_equal]
  by_cases h : d.arch = AUDIT_ARCH_X86_64
  · rw [if_pos h, if_pos h]
    exact run_load (word_nr d)
  · rw [if_neg h, if_neg h]
    exact run_verdict

/-- After the load of the argument the accumulator holds the number no more: both ways end here. -/
theorem run_channelBlock (channel nr : BitVec 32) (rest : List Instruction) (a : BitVec 32) :
    run d.word (channelBlock channel nr ++ rest) a =
      if a = nr then
        some (if (d.args 0).setWidth 32 = channel then SECCOMP_RET_ALLOW else denied)
      else run d.word rest a := by
  have htaken : ∀ a,
    run d.word ([.load OFFSET_ARGS0, .equal channel 0 1, .verdict SECCOMP_RET_ALLOW,
      .verdict denied] ++ rest) a =
      some (if (d.args 0).setWidth 32 = channel then SECCOMP_RET_ALLOW else denied) := by
    intro a
    simp only [List.cons_append, List.nil_append]
    rw [run_load (word_args0 d), run_equal]
    split_ifs
    · exact run_verdict
    · exact run_verdict
  rw [← htaken a]
  exact run_guarded rfl

theorem run_cloneBlock : run d.word (cloneBlock ++ rest) a =
    if a = SYS_clone then
      some (if (d.args 0).getLsbD 16 ∧ (d.args 0).getLsbD 8 then SECCOMP_RET_ALLOW else denied)
    else run d.word rest a := by
  have htaken : ∀ a, run d.word ([.load OFFSET_ARGS0, .bits CLONE_THREAD 0 2, .bits CLONE_VM 0 1,
      .verdict SECCOMP_RET_ALLOW, .verdict denied] ++ rest) a =
      some (if (d.args 0).getLsbD 16 ∧ (d.args 0).getLsbD 8 then SECCOMP_RET_ALLOW
        else denied) := by
    intro a
    simp only [List.cons_append, List.nil_append]
    have hthread : (d.args 0).setWidth 32 &&& CLONE_THREAD ≠ 0 ↔ (d.args 0).getLsbD 16 :=
      flag_iff _ (by omega) (by decide)
    have hvm : (d.args 0).setWidth 32 &&& CLONE_VM ≠ 0 ↔ (d.args 0).getLsbD 8 :=
      flag_iff _ (by omega) (by decide)
    rw [run_load (word_args0 d), run_bits]
    by_cases h16 : (d.args 0).getLsbD 16
    · rw [if_pos (hthread.mpr h16)]
      refine run_bits.trans ?_
      by_cases h8 : (d.args 0).getLsbD 8
      · rw [if_pos (hvm.mpr h8), if_pos ⟨h16, h8⟩]
        exact run_verdict
      · rw [if_neg (fun h => h8 (hvm.mp h)), if_neg (fun h => h8 h.2)]
        exact run_verdict
    · rw [if_neg (fun h => h16 (hthread.mp h)), if_neg (fun h => h16 h.1)]
      exact run_verdict
  rw [← htaken a]
  exact run_guarded rfl

theorem run_clone3Block : run d.word (clone3Block ++ rest) a =
    if a = SYS_clone3 then some (SECCOMP_RET_ERRNO ||| ENOSYS) else run d.word rest a := by
  have htaken : run d.word ([.verdict (SECCOMP_RET_ERRNO ||| ENOSYS)] ++ rest) a =
      some (SECCOMP_RET_ERRNO ||| ENOSYS) := run_verdict
  rw [← htaken]
  exact run_guarded rfl

theorem run_admittedBlock (nr : BitVec 32) (rest : List Instruction) (a : BitVec 32) :
    run d.word (admittedBlock nr ++ rest) a =
      if a = nr then some SECCOMP_RET_ALLOW else run d.word rest a := by
  have htaken : run d.word ([.verdict SECCOMP_RET_ALLOW] ++ rest) a = some SECCOMP_RET_ALLOW :=
    run_verdict
  rw [← htaken]
  exact run_guarded rfl

end Blocks

/-- The verdict, block by block: the number of the call reaches each comparison. -/
theorem verdict_eq (channel : BitVec 32) (d : SeccompData) :
    verdict channel d = some (
      if d.arch = AUDIT_ARCH_X86_64 then
        if d.nr ∈ channelCalls then
          if (d.args 0).setWidth 32 = channel then SECCOMP_RET_ALLOW else denied
        else if d.nr = SYS_clone then
          if (d.args 0).getLsbD 16 ∧ (d.args 0).getLsbD 8 then SECCOMP_RET_ALLOW else denied
        else if d.nr = SYS_clone3 then SECCOMP_RET_ERRNO ||| ENOSYS
        else if d.nr ∈ admittedCalls then SECCOMP_RET_ALLOW
        else denied
      else SECCOMP_RET_KILL_PROCESS) := by
  unfold verdict restrictWorker
  rw [run_archBlock, run_each (run_channelBlock channel), run_cloneBlock, run_clone3Block,
    run_each run_admittedBlock, run_verdict]
  simp only [apply_ite some]

/-! ### Where the jumps land -/

theorem lands_restrictWorker (channel : BitVec 32) :
    Lands (archBlock ++ (channelCalls.flatMap (channelBlock channel) ++
      (cloneBlock ++ (clone3Block ++ admittedCalls.flatMap admittedBlock)))) := by
  have harch : Lands archBlock := by simp [archBlock, Lands, Instruction.skips]
  have hchannel : ∀ nr, Lands (channelBlock channel nr) := by
    simp [channelBlock, Lands, Instruction.skips]
  have hclone : Lands cloneBlock := by simp [cloneBlock, Lands, Instruction.skips]
  have hclone3 : Lands clone3Block := by simp [clone3Block, Lands, Instruction.skips]
  have hadmitted : ∀ nr, Lands (admittedBlock nr) := by
    simp [admittedBlock, Lands, Instruction.skips]
  exact harch.append ((Lands.flatMap hchannel _).append
    (hclone.append (hclone3.append (Lands.flatMap hadmitted _))))

theorem contained_restrictWorker (channel : BitVec 32) : Contained (restrictWorker channel) := by
  have h := (lands_restrictWorker channel).contained denied
  simpa only [restrictWorker, List.append_assoc] using h

/-! ### The policy of the program -/

theorem channelCalls_apart {nr : BitVec 32} (h : nr ∈ channelCalls) :
    nr ≠ SYS_clone ∧ nr ≠ SYS_clone3 ∧ nr ∉ admittedCalls := by
  simp only [channelCalls, List.mem_cons, List.not_mem_nil, or_false] at h
  rcases h with rfl | rfl | rfl
  · decide
  · decide
  · decide

theorem SYS_clone_apart :
    SYS_clone ∉ channelCalls ∧ SYS_clone ≠ SYS_clone3 ∧ SYS_clone ∉ admittedCalls := by decide

theorem SYS_clone3_apart :
    SYS_clone3 ∉ channelCalls ∧ SYS_clone3 ≠ SYS_clone ∧ SYS_clone3 ∉ admittedCalls := by decide

section Admitted

variable {channel : BitVec 32} {d : SeccompData}

theorem admitted_channel (h : d.nr ∈ channelCalls) :
    Admitted channel d ↔ (d.args 0).setWidth 32 = channel := by
  obtain ⟨hclone, -, hadmitted⟩ := channelCalls_apart h
  simp only [Admitted, h, hclone, hadmitted, true_and, false_and, or_false]

theorem admitted_clone (h : d.nr = SYS_clone) :
    Admitted channel d ↔ (d.args 0).getLsbD 16 ∧ (d.args 0).getLsbD 8 := by
  obtain ⟨hchannel, -, hadmitted⟩ := SYS_clone_apart
  simp only [Admitted, h, hchannel, hadmitted, true_and, false_and, false_or, or_false]

theorem admitted_other (hchannel : d.nr ∉ channelCalls) (hclone : d.nr ≠ SYS_clone) :
    Admitted channel d ↔ d.nr ∈ admittedCalls := by
  simp only [Admitted, hchannel, hclone, false_and, false_or]

end Admitted

/-- What the kernel may be told to do. -/
inductive Outcome
  | allow
  | kill
  | unknown
  | refuse
deriving DecidableEq

def Outcome.code : Outcome → BitVec 32
  | .allow => SECCOMP_RET_ALLOW
  | .kill => SECCOMP_RET_KILL_PROCESS
  | .unknown => SECCOMP_RET_ERRNO ||| ENOSYS
  | .refuse => SECCOMP_RET_ERRNO ||| EPERM

theorem Outcome.code_inj {o o' : Outcome} (h : o.code = o'.code) : o = o' := by
  revert h
  cases o <;> cases o' <;> decide

/-- The policy in its own words. -/
def policy (channel : BitVec 32) (d : SeccompData) : Outcome :=
  if d.arch ≠ AUDIT_ARCH_X86_64 then .kill
  else if Admitted channel d then .allow
  else if d.nr = SYS_clone3 then .unknown
  else .refuse

section Policy

variable {channel : BitVec 32} {d : SeccompData}

theorem policy_of_admitted (harch : d.arch = AUDIT_ARCH_X86_64) (h : Admitted channel d) :
    policy channel d = .allow := by
  rw [policy, if_neg (not_not_intro harch), if_pos h]

theorem policy_of_clone3 (harch : d.arch = AUDIT_ARCH_X86_64) (h : ¬ Admitted channel d)
    (hclone3 : d.nr = SYS_clone3) : policy channel d = .unknown := by
  rw [policy, if_neg (not_not_intro harch), if_neg h, if_pos hclone3]

theorem policy_of_other (harch : d.arch = AUDIT_ARCH_X86_64) (h : ¬ Admitted channel d)
    (hclone3 : d.nr ≠ SYS_clone3) : policy channel d = .refuse := by
  rw [policy, if_neg (not_not_intro harch), if_neg h, if_neg hclone3]

theorem policy_of_arch (harch : d.arch ≠ AUDIT_ARCH_X86_64) : policy channel d = .kill := by
  rw [policy, if_pos harch]

end Policy

theorem verdict_policy (channel : BitVec 32) (d : SeccompData) :
    verdict channel d = some (policy channel d).code := by
  rw [verdict_eq]
  congr 1
  by_cases harch : d.arch = AUDIT_ARCH_X86_64
  · rw [if_pos harch]
    by_cases hchannel : d.nr ∈ channelCalls
    · obtain ⟨-, hclone3, -⟩ := channelCalls_apart hchannel
      rw [if_pos hchannel]
      by_cases h : (d.args 0).setWidth 32 = channel
      · rw [if_pos h, policy_of_admitted harch ((admitted_channel hchannel).mpr h), Outcome.code]
      · rw [if_neg h, policy_of_other harch (mt (admitted_channel hchannel).mp h) hclone3, denied,
          Outcome.code]
    · rw [if_neg hchannel]
      by_cases hclone : d.nr = SYS_clone
      · have hclone3 : d.nr ≠ SYS_clone3 := hclone ▸ SYS_clone_apart.2.1
        rw [if_pos hclone]
        by_cases h : (d.args 0).getLsbD 16 ∧ (d.args 0).getLsbD 8
        · rw [if_pos h, policy_of_admitted harch ((admitted_clone hclone).mpr h), Outcome.code]
        · rw [if_neg h, policy_of_other harch (mt (admitted_clone hclone).mp h) hclone3, denied,
            Outcome.code]
      · rw [if_neg hclone]
        have hadmitted : Admitted channel d ↔ d.nr ∈ admittedCalls := admitted_other hchannel hclone
        by_cases hclone3 : d.nr = SYS_clone3
        · have h : d.nr ∉ admittedCalls := hclone3 ▸ SYS_clone3_apart.2.2
          rw [if_pos hclone3, policy_of_clone3 harch (mt hadmitted.mp h) hclone3, Outcome.code]
        · rw [if_neg hclone3]
          by_cases h : d.nr ∈ admittedCalls
          · rw [if_pos h, policy_of_admitted harch (hadmitted.mpr h), Outcome.code]
          · rw [if_neg h, policy_of_other harch (mt hadmitted.mp h) hclone3, denied, Outcome.code]
  · rw [if_neg harch, policy_of_arch harch, Outcome.code]

theorem policy_allow (channel : BitVec 32) (d : SeccompData) :
    policy channel d = .allow ↔ d.arch = AUDIT_ARCH_X86_64 ∧ Admitted channel d := by
  unfold policy
  split_ifs <;> simp_all

theorem policy_kill (channel : BitVec 32) (d : SeccompData) :
    policy channel d = .kill ↔ d.arch ≠ AUDIT_ARCH_X86_64 := by
  unfold policy
  split_ifs <;> simp_all

theorem policy_unknown (channel : BitVec 32) (d : SeccompData) :
    policy channel d = .unknown ↔ d.arch = AUDIT_ARCH_X86_64 ∧ d.nr = SYS_clone3 := by
  have hclone3 : d.nr = SYS_clone3 → ¬ Admitted channel d := by
    intro h
    obtain ⟨hchannel, hclone, hadmitted⟩ := SYS_clone3_apart
    rw [admitted_other (h ▸ hchannel) (h ▸ hclone), h]
    exact hadmitted
  unfold policy
  split_ifs <;> simp_all

theorem policy_refuse (channel : BitVec 32) (d : SeccompData) :
    policy channel d = .refuse ↔
      d.arch = AUDIT_ARCH_X86_64 ∧ ¬ Admitted channel d ∧ d.nr ≠ SYS_clone3 := by
  unfold policy
  split_ifs <;> simp_all

/-- **The policy of the worker.** The program has a verdict for every record, and all its jumps stay
inside. -/
theorem restrictWorker_policy (channel : BitVec 32) (d : SeccompData) :
    Contained (restrictWorker channel) ∧ ∃ r, verdict channel d = some r ∧
      (r = SECCOMP_RET_ALLOW ↔ d.arch = AUDIT_ARCH_X86_64 ∧ Admitted channel d) ∧
      (r = SECCOMP_RET_KILL_PROCESS ↔ d.arch ≠ AUDIT_ARCH_X86_64) ∧
      (r = SECCOMP_RET_ERRNO ||| ENOSYS ↔ d.arch = AUDIT_ARCH_X86_64 ∧ d.nr = SYS_clone3) ∧
      (r = SECCOMP_RET_ERRNO ||| EPERM ↔
        d.arch = AUDIT_ARCH_X86_64 ∧ ¬ Admitted channel d ∧ d.nr ≠ SYS_clone3) := by
  have hcode : ∀ o : Outcome, (policy channel d).code = o.code ↔ policy channel d = o :=
    fun o => ⟨Outcome.code_inj, congrArg Outcome.code⟩
  refine ⟨contained_restrictWorker channel, _, verdict_policy channel d, ?_, ?_, ?_, ?_⟩
  · exact (hcode .allow).trans (policy_allow channel d)
  · exact (hcode .kill).trans (policy_kill channel d)
  · exact (hcode .unknown).trans (policy_unknown channel d)
  · exact (hcode .refuse).trans (policy_refuse channel d)

end Afterfree.Worker.Sandbox
