import Mathlib
import Rcc.Peephole

/-!
# Is a register read behind the window?

`reg_live_in_text` looks for some names of a register in the next thirty lines. Execution also reads registers without naming them, or
under names that are not looked for; it jumps away, and it goes on behind the last line looked at. What an instruction reads and
overwrites, and where it goes, is taken from the machine (`Machine`).

Up to where execution leaves the lines that are scanned, it takes them one by one. So when nothing has been found, the register is
dead exactly if no line reads it unseen up to where it is overwritten, and it is dead wherever execution leaves before that.
-/

namespace Rcc.Peephole

open Lexer (Text)
open BitField (Arch)

/-- The instructions of a machine, by their lines. -/
structure Machine where
  reads : Text → Nat → Prop
  /-- the whole register, whatever was in it -/
  overwrites : Text → Nat → Prop
  /-- from a place in the lines of a function to another -/
  goes : List Text → Nat → Nat → Prop

section

variable (machine : Machine) (body : List Text) (pid : Nat)

/-- On a path from the place on, a part of the register is read before it is overwritten. -/
inductive ReadFrom : Nat → Prop
  | here {i : Nat} {line : Text} (hline : body[i]? = some line) (hreads : machine.reads line pid) : ReadFrom i
  | later {i j : Nat} {line : Text} (hline : body[i]? = some line) (hkeeps : ¬ machine.overwrites line pid)
      (hgoes : machine.goes body i j) (h : ReadFrom j) : ReadFrom i

/-- So many lines from the place on, execution can come without overwriting the register, line by line. -/
def Comes (start k : Nat) : Prop :=
  ∀ m < k, ∃ line, body[start + m]? = some line ∧ ¬ machine.overwrites line pid ∧ machine.goes body (start + m) (start + m + 1)

/-- On the way through `n` lines, none of which reads the register, execution leaves it dead. -/
structure LeavesDead (names : List Text) (start n : Nat) : Prop where
  /-- no line that does not name it reads it -/
  unseen : ∀ k < n, Comes machine body pid start k → ∀ line, body[start + k]? = some line →
    names.any (contains line) = false → ¬ machine.reads line pid
  /-- by a jump -/
  jumps : ∀ k < n, Comes machine body pid start k → ∀ line, body[start + k]? = some line → ¬ machine.overwrites line pid →
    ∀ j, machine.goes body (start + k) j → j ≠ start + k + 1 → ¬ ReadFrom machine body pid j
  /-- behind the last line -/
  behind : Comes machine body pid start n → ¬ ReadFrom machine body pid (start + n)

end

variable {machine : Machine} {body : List Text} {pid : Nat} {names : List Text} {start n : Nat}

theorem Comes.succ {k : Nat} {line : Text} (h : Comes machine body pid start k) (hline : body[start + k]? = some line)
    (hkeeps : ¬ machine.overwrites line pid) (hgoes : machine.goes body (start + k) (start + k + 1)) :
    Comes machine body pid start (k + 1) := by
  intro m hm
  rcases Nat.lt_succ_iff_lt_or_eq.mp hm with hlt | rfl
  · exact h m hlt
  · exact ⟨line, hline, hkeeps, hgoes⟩

/-- What is read from a line that execution comes to is read from the first one on. -/
theorem Comes.readFrom {k : Nat} (h : Comes machine body pid start k) (hread : ReadFrom machine body pid (start + k)) :
    ReadFrom machine body pid start := by
  induction k with
  | zero => exact hread
  | succ k ih =>
      obtain ⟨line, hline, hkeeps, hgoes⟩ := h k (Nat.lt_succ_self k)
      exact ih (fun m hm => h m (Nat.lt_succ_of_lt hm)) (.later hline hkeeps hgoes hread)

/-- On a path through lines without the names, the reading is unseen, or behind a jump, or behind the last line. -/
theorem not_readFrom_of_leavesDead (hdead : LeavesDead machine body pid names start n)
    (hnames : ∀ k < n, ∀ line, body[start + k]? = some line → names.any (contains line) = false) {k : Nat} (hk : k ≤ n)
    (hcomes : Comes machine body pid start k) : ¬ ReadFrom machine body pid (start + k) := by
  generalize hi : start + k = i
  intro hread
  induction hread generalizing k with
  | @here i line hline hreads =>
      subst hi
      rcases Nat.lt_or_eq_of_le hk with hlt | rfl
      · exact hdead.unseen k hlt hcomes line hline (hnames k hlt line hline) hreads
      · exact hdead.behind hcomes (.here hline hreads)
  | @later i j line hline hkeeps hgoes hread ih =>
      subst hi
      rcases Nat.lt_or_eq_of_le hk with hlt | rfl
      · by_cases hnext : j = start + k + 1
        · subst hnext
          exact ih hlt (hcomes.succ hline hkeeps hgoes) rfl
        · exact hdead.jumps k hlt hcomes line hline hkeeps j hgoes hnext hread
      · exact hdead.behind hcomes (.later hline hkeeps hgoes hread)

/-- A dead register is left dead. -/
theorem leavesDead_of_not_readFrom (hdead : ¬ ReadFrom machine body pid start) :
    LeavesDead machine body pid names start n where
  unseen := fun _ _ hcomes _ hline _ hreads => hdead (hcomes.readFrom (.here hline hreads))
  jumps := fun _ _ hcomes _ hline hkeeps _ hgoes _ hread => hdead (hcomes.readFrom (.later hline hkeeps hgoes hread))
  behind := fun hcomes hread => hdead (hcomes.readFrom hread)

/-- The lines of a text. -/
def textLines (text : Text) : List Text := (bodyLines text).map Prod.fst

/-- The lines that are scanned. -/
def scanned (text : Text) : List Text := (textLines text).take 30

theorem variants_ne_nil {arch : Arch} {pid : Nat} {name : Text} (h : name ∈ variants arch pid) : name ≠ [] := by
  have hregs : ∀ arch, ∀ names ∈ regNames arch, names.1 ≠ "" ∧ names.2 ≠ "" := fun arch => by
    cases arch with
    | x86 => decide
    | arm64 => decide
  obtain ⟨spelling, hmem, rfl⟩ := List.mem_map.mp h
  suffices spelling ≠ "" from fun hnil => this (String.toList_eq_nil_iff.mp hnil)
  rcases List.mem_append.mp hmem with hmem | hmem
  · split at hmem
    · rename_i names hfind
      obtain ⟨hfirst, hsecond⟩ := hregs arch names (List.mem_of_find?_eq_some hfind)
      simp only [List.mem_cons, List.not_mem_nil, or_false] at hmem
      rcases hmem with rfl | rfl
      · exact hfirst
      · exact hsecond
    · cases hmem
  · intro hempty
    subst hempty
    split at hmem
    · simp at hmem
    · simp at hmem
    · simp at hmem
    · simp at hmem
    · simp at hmem

/-- Where nothing is found, none of the names is there. -/
theorem names_of_not_live {arch : Arch} {text : Text} (h : regLiveInText arch text pid = false) {line : Text}
    (hline : line ∈ scanned text) : (variants arch pid).any (contains line) = false := by
  obtain ⟨entry, hentry, rfl⟩ : ∃ entry ∈ (bodyLines text).take 30, entry.1 = line := by
    rw [scanned, textLines, ← List.map_take] at hline
    exact List.mem_map.mp hline
  have hentry := List.any_eq_false.mp h entry hentry
  by_cases hempty : entry.1 = []
  · rw [hempty, List.any_eq_false]
    intro name hname hcontains
    have hne := variants_ne_nil hname
    cases name with
    | nil => exact hne rfl
    | cons c name => cases hcontains
  · simp only [Bool.not_eq_true, Bool.and_eq_false_iff, Bool.or_eq_false_iff, decide_eq_false_iff_not] at hentry
    rcases hentry with hnil | ⟨-, hnames⟩
    · exact absurd hempty hnil
    · exact hnames

/-- Of the machine, what is to be known of `cqo`: the sign of `%rax` goes into `%rdx`. -/
def signExtension : Machine where
  reads line pid := line = "  cqo".toList ∧ pid = 0
  overwrites line pid := line = "  cqo".toList ∧ pid = 2
  goes _ i j := j = i + 1

end Rcc.Peephole
