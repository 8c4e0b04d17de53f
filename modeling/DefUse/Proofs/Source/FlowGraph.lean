import DefUse.Source.FlowGraph
import DefUse.Proofs.Graph.Reach

/-!
# The blocks of a body are connected

While the blocks of a body are made, numbers of blocks are kept in many places: in the blocks that
lead to others, in labels, and in the places that branches lead to.  Blocks are only added, so a
number that was given out stays that of a block.

**Method.** A piece of work is followed with a number of blocks that exist when it starts.  What it
gives out is among the blocks that exist when it ends.  For every kind of statement the work is put
together from that on its parts; the recursion over the syntax then closes the circle.

**Results.**
* `Draft.keeps_stmts`: the work on statements keeps the numbers of blocks sound.
* `FlowGraph.closed_ofBody`: every block of a body leads to blocks of the body.
-/

namespace DefUse
namespace Source

/-- The places are among the first blocks. -/
structure Target.Below (n : Nat) (t : Target) : Prop where
  stop : ∀ b ∈ t.stop, b < n
  again : ∀ b ∈ t.again, b < n
  through : ∀ b ∈ t.through, b < n

/-- The blocks of the label are among the first. -/
structure LabelBlocks.Below (n : Nat) (l : LabelBlocks) : Prop where
  start : l.start < n
  stop : ∀ b ∈ l.stop, b < n
  again : ∀ b ∈ l.again, b < n

/-- All numbers of blocks are those of blocks made so far. -/
structure Draft.Sound (d : Draft) : Prop where
  current : d.current < d.blocks.size
  succs : ∀ b ∈ d.blocks, ∀ s ∈ b.succs, s < d.blocks.size
  labels : ∀ l ∈ d.labels, l.2.Below d.blocks.size
  targets : ∀ t ∈ d.targets, t.Below d.blocks.size

section Mono

variable {m n : Nat}

/-- Where there are more blocks, the places that branches lead to are still there. -/
theorem Target.Below.mono
    {t : Target}
    (h : t.Below m)
    (hmn : m ≤ n) :
    t.Below n :=
  ⟨fun b hb => Nat.lt_of_lt_of_le (h.stop b hb) hmn,
    fun b hb => Nat.lt_of_lt_of_le (h.again b hb) hmn,
    fun b hb => Nat.lt_of_lt_of_le (h.through b hb) hmn⟩

/-- Where there are more blocks, those of a label are still there. -/
theorem LabelBlocks.Below.mono
    {l : LabelBlocks}
    (h : l.Below m)
    (hmn : m ≤ n) :
    l.Below n :=
  ⟨Nat.lt_of_lt_of_le h.start hmn, fun b hb => Nat.lt_of_lt_of_le (h.stop b hb) hmn,
    fun b hb => Nat.lt_of_lt_of_le (h.again b hb) hmn⟩

theorem Target.below_stop
    {b : Nat}
    (hb : b < n) :
    Target.Below n { stop := some b } :=
  ⟨by simpa using hb, by simp, by simp⟩

theorem Target.below_loop
    {done next : Nat}
    (hdone : done < n)
    (hnext : next < n) :
    Target.Below n { stop := some done, again := some next } :=
  ⟨by simpa using hdone, by simpa using hnext, by simp⟩

end Mono

namespace Draft

/-- Wherever the first `n` blocks exist, the work keeps the numbers sound and adds blocks only; `Q`
tells about its result and the number of blocks when it ends. -/
def Keeps {α : Type} (n : Nat) (work : Build α) (Q : α → Nat → Prop) : Prop :=
  ∀ d : Draft, d.Sound → n ≤ d.blocks.size →
    (work.run d).2.Sound ∧ d.blocks.size ≤ (work.run d).2.blocks.size ∧
      Q (work.run d).1 (work.run d).2.blocks.size

/-- The work keeps the numbers sound, and has no result. -/
abbrev KeepsOn (n : Nat) (work : Build Unit) : Prop := Keeps n work fun _ _ => True

section Rules

variable {α β : Type} {n : Nat} {Q : α → Nat → Prop}

theorem Keeps.pure
    {a : α}
    (h : ∀ m, n ≤ m → Q a m) :
    Keeps n (pure a) Q :=
  fun _ hd hn => ⟨hd, Nat.le_refl _, h _ hn⟩

theorem keeps_skip : KeepsOn n (pure ()) :=
  .pure fun _ _ => trivial

/-- Two pieces of work one after the other: the second starts with what the first promises. -/
theorem Keeps.bind
    {work : Build β} {rest : β → Build α} {P : β → Nat → Prop}
    (hwork : Keeps n work P)
    (hrest : ∀ b m, n ≤ m → P b m → Keeps m (rest b) Q) :
    Keeps n (work >>= rest) Q := by
  intro d hd hn
  obtain ⟨hd₁, hle₁, hP⟩ := hwork d hd hn
  obtain ⟨hd₂, hle₂, hQ⟩ := hrest _ _ (Nat.le_trans hn hle₁) hP _ hd₁ (Nat.le_refl _)
  exact ⟨hd₂, Nat.le_trans hle₁ hle₂, hQ⟩

/-- Two pieces of work one after the other, the first of which has no result. -/
theorem Keeps.next
    {work : Build Unit} {rest : Unit → Build α}
    (hwork : KeepsOn n work)
    (hrest : Keeps n (rest ()) Q) :
    Keeps n (work >>= rest) Q :=
  hwork.bind fun _ _ hle _ d hd hn => hrest d hd (Nat.le_trans hle hn)

/-- Work that reads the draft knows that it is sound. -/
theorem Keeps.get
    {rest : Draft → Build α}
    (h : ∀ d : Draft, d.Sound → n ≤ d.blocks.size → Keeps d.blocks.size (rest d) Q) :
    Keeps n (get >>= rest) Q :=
  fun d hd hn => h d hd hn d hd (Nat.le_refl _)

theorem keeps_modify
    {change : Draft → Draft}
    (h : ∀ d : Draft, d.Sound → n ≤ d.blocks.size →
      (change d).Sound ∧ d.blocks.size ≤ (change d).blocks.size) :
    KeepsOn n (modify change) :=
  fun d hd hn => ⟨(h d hd hn).1, (h d hd hn).2, trivial⟩

end Rules

section Steps

variable {n : Nat}

/-- One more block, which leads nowhere, is sound. -/
theorem Sound.push
    {d : Draft}
    (hd : d.Sound) :
    Sound { d with blocks := d.blocks.push {} } := by
  have hle : d.blocks.size ≤ (d.blocks.push {}).size := by simp
  refine ⟨Nat.lt_of_lt_of_le hd.current hle, ?_, fun l hl => (hd.labels l hl).mono hle,
    fun t ht => (hd.targets t ht).mono hle⟩
  intro b hb s hs
  rcases Array.mem_push.mp hb with hb | rfl
  · exact Nat.lt_of_lt_of_le (hd.succs b hb s hs) hle
  · exact absurd hs List.not_mem_nil

/-- The number of a new block is below the number of blocks from then on. -/
theorem keeps_new :
    Keeps n new fun b m => b < m := by
  intro d hd _
  have hrun : new.run d = (d.blocks.size, { d with blocks := d.blocks.push {} }) := rfl
  rw [hrun]
  exact ⟨hd.push, by simp, by simp⟩

/-- Work may go on in any block that exists. -/
theorem keeps_enter
    {b : Nat}
    (hb : b < n) :
    KeepsOn n (enter b) :=
  keeps_modify fun _ hd hn =>
    ⟨⟨Nat.lt_of_lt_of_le hb hn, hd.succs, hd.labels, hd.targets⟩, Nat.le_refl _⟩

theorem keeps_enterNew : KeepsOn n enterNew :=
  keeps_new.bind fun _ _ _ hb => keeps_enter hb

/-- A change of the current block that lets it lead to existing blocks. -/
theorem keeps_amend
    {change : Block → Block}
    (h : ∀ b, ∀ s ∈ (change b).succs, s ∈ b.succs ∨ s < n) :
    KeepsOn n (amend change) := by
  refine keeps_modify fun d hd hn => ?_
  have hsize : (d.blocks.modify d.current change).size = d.blocks.size := Array.size_modify
  refine ⟨⟨?_, ?_, ?_, ?_⟩, Nat.le_of_eq hsize.symm⟩
  · exact Nat.lt_of_lt_of_eq hd.current hsize.symm
  · intro b hb s hs
    simp only [hsize]
    obtain ⟨i, hi, rfl⟩ := Array.getElem_of_mem hb
    have hi' : i < d.blocks.size := Nat.lt_of_lt_of_eq hi hsize
    have hold : ∀ s ∈ d.blocks[i].succs, s < d.blocks.size := hd.succs _ (Array.getElem_mem hi')
    rw [Array.getElem_modify] at hs
    split at hs
    · rcases h _ s hs with hs | hs
      · exact hold s hs
      · exact Nat.lt_of_lt_of_le hs hn
    · exact hold s hs
  · simpa only [hsize] using hd.labels
  · simpa only [hsize] using hd.targets

/-- Steps do not change where blocks lead. -/
theorem keeps_add
    (s : Step) :
    KeepsOn n (add s) :=
  keeps_amend fun _ _ hs => Or.inl hs

/-- A block may lead to blocks that exist. -/
theorem keeps_goto
    {bs : List Nat}
    (hbs : ∀ b ∈ bs, b < n) :
    KeepsOn n (goto bs) :=
  keeps_amend fun _ s hs => (List.mem_append.mp hs).imp_right (hbs s)

theorem keeps_forM
    {α : Type} {work : α → Build Unit}
    (h : ∀ a, KeepsOn n (work a)) :
    ∀ items : List α, KeepsOn n (items.forM work)
  | [] => keeps_skip
  | a :: rest => .next (h a) (keeps_forM h rest)

/-- The block of a label exists, whether it was made before or is made now. -/
theorem keeps_label
    (name : String) :
    Keeps n (label name) fun l m => l.Below m := by
  refine .get fun d hd _ => ?_
  cases hlookup : d.labels.lookup name with
  | some found =>
      obtain ⟨front, back, hlabels, -⟩ := List.lookup_eq_some_iff.mp hlookup
      have hfound := hd.labels (name, found) (by simp [hlabels])
      exact .pure fun _ hle => hfound.mono hle
  | none =>
      refine keeps_new.bind fun start m _ hstart => ?_
      have hmade : LabelBlocks.Below m { start } := ⟨hstart, by simp, by simp⟩
      refine .next (keeps_modify fun d hd hle => ?_) (.pure fun _ hle => hmade.mono hle)
      refine ⟨⟨hd.current, hd.succs, ?_, hd.targets⟩, Nat.le_refl _⟩
      intro l hl
      rcases List.mem_cons.mp hl with rfl | hl
      · exact hmade.mono hle
      · exact hd.labels l hl

/-- A label may lead to blocks that exist. -/
theorem keeps_bindLabel
    {stop : Nat} {again : Option Nat} (name : Option String)
    (hstop : stop < n)
    (hagain : ∀ b ∈ again, b < n) :
    KeepsOn n (bindLabel name stop again) := by
  cases name with
  | none => exact keeps_skip
  | some name =>
      refine keeps_modify fun d hd hn => ⟨⟨hd.current, hd.succs, ?_, hd.targets⟩, Nat.le_refl _⟩
      intro l hl
      obtain ⟨⟨other, old⟩, hold, rfl⟩ := List.mem_map.mp hl
      dsimp only
      split
      · refine ⟨(hd.labels _ hold).start, ?_, fun b hb => Nat.lt_of_lt_of_le (hagain b hb) hn⟩
        rintro b ⟨⟩
        exact Nat.lt_of_lt_of_le hstop hn
      · exact hd.labels _ hold

/-- Branches inside lead to the places given, and outside again to those of before. -/
theorem keeps_inside
    {t : Target} {body : Build Unit}
    (ht : t.Below n)
    (hbody : KeepsOn n body) :
    KeepsOn n (inside t body) := by
  refine .next (keeps_modify fun d hd hn => ?_) (.next hbody (keeps_modify fun d hd _ => ?_))
  · refine ⟨⟨hd.current, hd.succs, hd.labels, ?_⟩, Nat.le_refl _⟩
    intro t' ht'
    rcases List.mem_cons.mp ht' with rfl | ht'
    · exact ht.mono hn
    · exact hd.targets t' ht'
  · exact ⟨⟨hd.current, hd.succs, hd.labels, fun t ht => hd.targets t (List.mem_of_mem_tail ht)⟩,
      Nat.le_refl _⟩

/-- A branch leads to a block that exists, if it leads anywhere. -/
theorem keeps_destination?
    (kind : BranchKind) (name : Option String) :
    Keeps n (destination? kind name) fun found m => ∀ b ∈ found, b < m := by
  have htargets : ∀ {place : Target → Option Nat},
      (∀ {t m}, t.Below m → ∀ b ∈ place t, b < m) →
      Keeps n (do return (← get).targets.findSome? place) fun found m => ∀ b ∈ found, b < m := by
    intro place hplace
    refine .get fun d hd _ => .pure fun _ hle b hb => ?_
    obtain ⟨t, ht, htb⟩ := List.exists_of_findSome?_eq_some hb
    exact Nat.lt_of_lt_of_le (hplace (hd.targets t ht) b htb) hle
  have hlabels : ∀ {place : LabelBlocks → Option Nat} (name : String),
      (∀ {l m}, l.Below m → ∀ b ∈ place l, b < m) →
      Keeps n (do return place (← label name)) fun found m => ∀ b ∈ found, b < m :=
    fun name hplace => (keeps_label name).bind fun l m _ hl => .pure fun _ hle b hb =>
      Nat.lt_of_lt_of_le (hplace hl b hb) hle
  cases kind with
  | «break» =>
      cases name with
      | none => exact htargets Target.Below.stop
      | some name => exact hlabels name LabelBlocks.Below.stop
  | «continue» =>
      cases name with
      | none => exact htargets Target.Below.again
      | some name => exact hlabels name LabelBlocks.Below.again
  | goto =>
      cases name with
      | none => exact .pure fun _ _ b hb => absurd hb (by simp)
      | some name => exact hlabels name fun hl b hb => Option.mem_some.mp hb ▸ hl.start
  | «fallthrough» => cases name <;> exact htargets Target.Below.through

/-- A branch leads away, and what follows it is in a block of its own. -/
theorem keeps_branch
    (kind : BranchKind) (name : Option String) :
    KeepsOn n (branch kind name) := by
  unfold branch
  refine (keeps_destination? kind name).bind fun found m _ hfound => ?_
  have hleave : ∀ b k, m ≤ k → b < k → KeepsOn k (do goto [b]; enterNew) := fun b k _ hb =>
    .next (keeps_goto (by simpa using hb)) keeps_enterNew
  cases found with
  | none => exact keeps_new.bind hleave
  | some b => exact hleave b m (Nat.le_refl m) (hfound b rfl)

/-- The tests of a clause lead to its body or to the next test. -/
theorem keeps_testCases
    {body : Nat} (exprs : List Expr) :
    ∀ {n : Nat}, body < n → KeepsOn n (testCases body exprs) := by
  induction exprs with
  | nil => exact fun _ => keeps_skip
  | cons x rest ih =>
      intro n hbody
      refine keeps_new.bind fun next m hm hnext => ?_
      have hbody' : body < m := by omega
      exact .next (keeps_add _) (.next (keeps_goto (by simp [hbody', hnext]))
        (.next (keeps_enter hnext) (ih hbody')))

/-- The tests of types lead to the body or to the next test. -/
theorem keeps_testTypes
    {body : Nat} (exprs : List Expr) :
    ∀ {n : Nat}, body < n → KeepsOn n (testTypes body exprs) := by
  induction exprs with
  | nil => exact fun _ => keeps_skip
  | cons x rest ih =>
      intro n hbody
      refine keeps_new.bind fun next m hm hnext => ?_
      have hbody' : body < m := by omega
      exact .next (keeps_goto (by simp [hbody', hnext])) (.next (keeps_enter hnext) (ih hbody'))

end Steps

section Kinds

-- the equations of the work on a statement, which every kind needs, are made once
attribute [local simp] stmt

variable {stops : Expr → Bool} {n : Nat} {name : Option String}

/-- An expression; what follows a call that never returns is in a block of its own. -/
theorem keeps_expr
    (pos : Int) (x : Expr) :
    KeepsOn n (stmt stops name (.expr pos x)) := by
  cases x with
  | call _ _ callee _ =>
      rw [stmt]
      refine .next (keeps_add _) ?_
      split
      · exact keeps_enterNew
      · exact keeps_skip
  | _ =>
      rw [stmt]
      · exact .next (keeps_add _) keeps_skip
      · simp

/-- A declaration of variables has a step for every specification. -/
theorem keeps_declare
    (isVar : Bool) (specs : List Expr) :
    KeepsOn n (stmt stops name (.declare isVar specs)) := by
  rw [stmt]
  split
  · exact keeps_forM (fun _ => keeps_add _) specs
  · exact keeps_skip

/-- A labelled statement starts in the block of its label. -/
theorem keeps_labeled
    {inner : String} {s : Stmt}
    (hs : ∀ m, KeepsOn m (stmt stops (some inner) s)) :
    KeepsOn n (stmt stops name (.labeled inner s)) := by
  rw [stmt]
  refine (keeps_label inner).bind fun l m _ hl => ?_
  exact .next (keeps_goto (by simpa using hl.start)) (.next (keeps_enter hl.start) (hs m))

/-- A conditional; the second part leads to the same end as the first one. -/
theorem keeps_conditional
    {init otherwise : Option Stmt} {cond : Expr} {start stop : Int} {body : List Stmt}
    (hinit : KeepsOn n (opt stops init))
    (hbody : ∀ m, KeepsOn m (stmts stops body))
    (halternative : ∀ {m no done}, no < m → done < m →
      KeepsOn m (alternative stops no done otherwise)) :
    KeepsOn n (stmt stops name (.conditional init cond start stop body otherwise)) := by
  rw [stmt]
  refine .next hinit ?_
  refine keeps_new.bind fun yes m₁ _ hyes => ?_
  refine keeps_new.bind fun done m₂ h₁₂ hdone => ?_
  -- what follows is the same whether there is a second part or not
  extract_lets rest
  have hrest : ∀ no m, m₂ ≤ m → no < m → KeepsOn m (rest no) := by
    intro no m hm hno
    have hyes' : yes < m := by omega
    have hdone' : done < m := by omega
    exact .next (keeps_add _) (.next (keeps_goto (by simp [hyes', hno]))
      (.next (keeps_enter hyes') (.next (hbody m)
        (.next (keeps_goto (by simpa using hdone'))
          (.next (halternative hno hdone') (keeps_enter hdone'))))))
  cases otherwise with
  | none => exact hrest done m₂ (Nat.le_refl m₂) hdone
  | some s => exact keeps_new.bind hrest

/-- The fallback of a switch, if there is one, with the places that branches lead to in it. -/
abbrev FallbackBelow (fallback : Option (Nat × Target)) (n : Nat) : Prop :=
  ∀ found ∈ fallback, found.1 < n ∧ found.2.Below n

/-- A switch goes through its clauses and then to its fallback, if there is one. -/
theorem keeps_switch
    {init : Option Stmt} {tag : Option Expr} {clauses : List Clause}
    (hinit : KeepsOn n (opt stops init))
    (hcases : ∀ {m done}, done < m → Keeps m (cases stops done none clauses) FallbackBelow)
    (hfallback : ∀ m, KeepsOn m (fallbackBody stops clauses)) :
    KeepsOn n (stmt stops name (.switch init tag clauses)) := by
  rw [stmt]
  refine .next hinit ?_
  extract_lets rest
  have hrest : KeepsOn n (rest ()) := by
    refine keeps_new.bind fun done m _ hdone => ?_
    refine .next (keeps_bindLabel name hdone (by simp)) ?_
    refine (hcases hdone).bind fun fallback m' hm hplaced => ?_
    have hdone' : done < m' := by omega
    have hleave : KeepsOn m' (do goto [done]; enter done) :=
      .next (keeps_goto (by simpa using hdone')) (keeps_enter hdone')
    cases fallback with
    | none => exact hleave
    | some found =>
        obtain ⟨hstart, ht⟩ := hplaced found rfl
        exact .next (keeps_goto (by simpa using hstart)) (.next (keeps_enter hstart)
          (.next (keeps_inside ht (hfallback m')) hleave))
  cases tag with
  | none => exact hrest
  | some x => exact .next (keeps_add _) hrest

/-- A switch over types; every clause leads to the end. -/
theorem keeps_typeSwitch
    {init : Option Stmt} {guard : Stmt} {clauses : List Clause}
    (hinit : KeepsOn n (opt stops init))
    (hguard : KeepsOn n (stmt stops none guard))
    (hcases : ∀ {m done}, done < m → KeepsOn m (typeCases stops done clauses))
    (hfallback : ∀ m, KeepsOn m (fallbackBody stops clauses)) :
    KeepsOn n (stmt stops name (.typeSwitch init guard clauses)) := by
  rw [stmt]
  refine .next hinit (.next hguard ?_)
  refine keeps_new.bind fun done m _ hdone => ?_
  exact .next (keeps_bindLabel name hdone (by simp)) (.next (hcases hdone)
    (.next (keeps_inside (Target.below_stop hdone) (hfallback m))
      (.next (keeps_goto (by simpa using hdone)) (keeps_enter hdone))))

/-- A choice among communications; all of them are evaluated first. -/
theorem keeps_select
    {clauses : List Clause}
    (hcommunications : KeepsOn n (communications stops clauses))
    (hchoices : ∀ {m done}, done < m → KeepsOn m (choices stops done clauses))
    (hfallback : ∀ m, KeepsOn m (fallbackBody stops clauses)) :
    KeepsOn n (stmt stops name (.select clauses)) := by
  rw [stmt]
  refine .next hcommunications ?_
  refine keeps_new.bind fun done m _ hdone => ?_
  refine .next (keeps_bindLabel name hdone (by simp)) (.next (hchoices hdone) ?_)
  extract_lets rest
  have hrest : KeepsOn m (rest ()) := keeps_enter hdone
  split
  · exact .next (keeps_inside (Target.below_stop hdone) (hfallback m))
      (.next (keeps_goto (by simpa using hdone)) hrest)
  · exact hrest

/-- A loop.  Its head is its first block if there is no condition, and what follows a round is its
head if there is no step between two rounds. -/
theorem keeps_loop
    {init post : Option Stmt} {cond : Option Expr} {body : List Stmt}
    (hinit : KeepsOn n (opt stops init))
    (hbody : ∀ m, KeepsOn m (stmts stops body))
    (hadvance : ∀ {m next head}, next < m → head < m →
      KeepsOn m (advance stops next head post)) :
    KeepsOn n (stmt stops name (.loop init cond post body)) := by
  rw [stmt]
  refine .next hinit ?_
  refine keeps_new.bind fun inner m₁ _ hinner => ?_
  refine keeps_new.bind fun done m₂ h₁₂ hdone => ?_
  extract_lets atHead
  have hatHead : ∀ head m, m₂ ≤ m → head < m → KeepsOn m (atHead head) := by
    intro head m₃ h₂₃ hhead
    unfold atHead
    extract_lets atNext
    have hatNext : ∀ next m, m₃ ≤ m → next < m → KeepsOn m (atNext next) := by
      intro next m h₃ hnext
      have hhead' : head < m := by omega
      have hinner' : inner < m := by omega
      have hdone' : done < m := by omega
      refine .next (keeps_bindLabel name hdone' (by simpa using hnext))
        (.next (keeps_goto (by simpa using hhead')) (.next (keeps_enter hhead') ?_))
      extract_lets rounds
      have hrounds : KeepsOn m (rounds ()) :=
        .next (keeps_inside (Target.below_loop hdone' hnext) (hbody m))
          (.next (keeps_goto (by simpa using hnext))
            (.next (hadvance hnext hhead') (keeps_enter hdone')))
      cases cond with
      | none => exact hrounds
      | some x =>
          exact .next (keeps_add _) (.next (keeps_goto (by simp [hinner', hdone']))
            (.next (keeps_enter hinner') hrounds))
    cases post with
    | none => exact hatNext head m₃ (Nat.le_refl m₃) hhead
    | some s => exact keeps_new.bind hatNext
  cases cond with
  | none => exact hatHead inner m₂ (Nat.le_refl m₂) (by omega)
  | some x => exact keeps_new.bind hatHead

/-- A loop over items leads from its head into the body and to its end. -/
theorem keeps_range
    {subject : Expr} {key value : Option Expr} {body : List Stmt}
    (hbody : ∀ m, KeepsOn m (stmts stops body)) :
    KeepsOn n (stmt stops name (.range subject key value body)) := by
  rw [stmt]
  refine .next (keeps_add _) (.next (keeps_forM (fun _ => keeps_add _) _) ?_)
  refine keeps_new.bind fun head m₁ _ hhead => ?_
  refine .next (keeps_goto (by simpa using hhead)) (.next (keeps_enter hhead) ?_)
  refine keeps_new.bind fun inner m₂ h₁₂ hinner => ?_
  refine keeps_new.bind fun done m₃ h₂₃ hdone => ?_
  have hhead' : head < m₃ := by omega
  have hinner' : inner < m₃ := by omega
  exact .next (keeps_goto (by simp [hinner', hdone])) (.next (keeps_enter hinner')
    (.next (keeps_bindLabel name hdone (by simpa using hhead'))
      (.next (keeps_inside (Target.below_loop hdone hhead') (hbody m₃))
        (.next (keeps_goto (by simpa using hhead')) (keeps_enter hdone)))))

/-- A piece of work that opens a block and leads from it to an end. -/
theorem keeps_detour
    {start done : Nat} {work : Build Unit}
    (hstart : start < n)
    (hdone : done < n)
    (hwork : KeepsOn n work) :
    KeepsOn n (do enter start; work; goto [done]) :=
  .next (keeps_enter hstart) (.next hwork (keeps_goto (by simpa using hdone)))

/-- The first of several clauses; its block and the one of the next clause are open when its
statements are made. -/
theorem keeps_cases_cons
    {done : Nat} {prepared : Option Nat} {clause : Clause} {rest : List Clause}
    (hdone : done < n)
    (hprepared : ∀ b ∈ prepared, b < n)
    (hinner : ∀ exprs inner, clause = .cases exprs inner → ∀ m, KeepsOn m (stmts stops inner))
    (hrest : ∀ {m done prepared}, done < m → (∀ b ∈ prepared, b < m) →
      Keeps m (cases stops done prepared rest) FallbackBelow) :
    Keeps n (cases stops done prepared (clause :: rest)) FallbackBelow := by
  rw [cases.eq_def]
  dsimp -zeta only
  extract_lets atBody
  have hatBody : ∀ body m, n ≤ m → body < m → Keeps m (atBody body) FallbackBelow := by
    intro body m₁ h₁ hbody
    unfold atBody
    extract_lets atNext
    have hatNext : ∀ next m, m₁ ≤ m → next < m → Keeps m (atNext next) FallbackBelow := by
      intro next m h₁₂ hnext
      have hdone' : done < m := by omega
      have hbody' : body < m := by omega
      have ht : Target.Below m { stop := some done, through := some next } :=
        ⟨by simpa using hdone', by simp, by simpa using hnext⟩
      unfold atNext
      extract_lets t
      cases clause with
      | cases exprs inner =>
          refine .next (keeps_testCases exprs hbody') (.get fun d hd hle => ?_)
          have hdone'' : done < d.blocks.size := Nat.lt_of_lt_of_le hdone' hle
          have hnext' : next < d.blocks.size := Nat.lt_of_lt_of_le hnext hle
          exact .next (keeps_enter (Nat.lt_of_lt_of_le hbody' hle))
            (.next (keeps_inside (ht.mono hle) (hinner exprs inner rfl _))
              (.next (keeps_goto (by simpa using hdone''))
                (.next (keeps_enter hd.current) (hrest hdone'' (by simpa using hnext')))))
      | otherwise body' =>
          refine (hrest hdone' (by simpa using hnext)).bind fun later k hk hlater => ?_
          refine .pure fun k' hk' found hfound => ?_
          cases later with
          | none =>
              rw [Option.none_or, Option.mem_some] at hfound
              exact hfound ▸ ⟨by dsimp only; omega, ht.mono (by omega)⟩
          | some first =>
              rw [Option.some_or] at hfound
              obtain ⟨hstart, hbelow⟩ := hlater found hfound
              exact ⟨by omega, hbelow.mono hk'⟩
      | comm s body' => exact hrest hdone' (by simpa using hnext)
    cases rest with
    | nil => exact hatNext done m₁ (Nat.le_refl m₁) (by omega)
    | cons c rest => exact keeps_new.bind hatNext
  cases prepared with
  | none => exact keeps_new.bind hatBody
  | some b => exact hatBody b n (Nat.le_refl n) (hprepared b rfl)

/-- The first of several clauses of a switch over types. -/
theorem keeps_typeCases_cons
    {done : Nat} {exprs : List Expr} {inner : List Stmt} {rest : List Clause}
    (hdone : done < n)
    (hinner : ∀ m, KeepsOn m (stmts stops inner))
    (hrest : ∀ {m}, done < m → KeepsOn m (typeCases stops done rest)) :
    KeepsOn n (typeCases stops done (.cases exprs inner :: rest)) := by
  rw [typeCases]
  refine keeps_new.bind fun body m hm hbody => ?_
  have hdone' : done < m := by omega
  refine .next (keeps_testTypes exprs hbody) (.get fun d hd hle => ?_)
  refine .next (keeps_enter (Nat.lt_of_lt_of_le hbody hle)) ?_
  have hdone'' : done < d.blocks.size := Nat.lt_of_lt_of_le hdone' hle
  exact .next (keeps_inside (Target.below_stop hdone'') (hinner _))
    (.next (keeps_goto (by simpa using hdone'')) (.next (keeps_enter hd.current) (hrest hdone'')))

/-- The first of several communications. -/
theorem keeps_choices_cons
    {done : Nat} {s : Stmt} {inner : List Stmt} {rest : List Clause}
    (hdone : done < n)
    (hinner : ∀ m, KeepsOn m (stmts stops inner))
    (hrest : ∀ {m}, done < m → KeepsOn m (choices stops done rest)) :
    KeepsOn n (choices stops done (.comm s inner :: rest)) := by
  rw [choices]
  refine keeps_new.bind fun body m₁ _ hbody => ?_
  refine keeps_new.bind fun next m₂ _ hnext => ?_
  have hbody' : body < m₂ := by omega
  have hdone' : done < m₂ := by omega
  refine .next (keeps_goto (by simp [hbody', hnext])) (.next (keeps_enter hbody')
    (.next (keeps_inside (Target.below_stop hdone') ?_)
      (.next (keeps_goto (by simpa using hdone')) (.next (keeps_enter hnext) (hrest hdone')))))
  extract_lets statements
  have hstatements : KeepsOn m₂ (statements ()) := hinner m₂
  split
  · exact .next (keeps_add _) hstatements
  · exact hstatements

end Kinds

section Syntax

variable {stops : Expr → Bool}

-- the recursion is that of the work: one case per kind of statement and clause
mutual

/-- The work on a statement keeps the numbers sound. -/
theorem keeps_stmt
    {n : Nat} (name : Option String) :
    ∀ s : Stmt, KeepsOn n (stmt stops name s)
  | .empty pos => by
      rw [stmt]
      exact keeps_add _
  | .expr pos x => keeps_expr pos x
  | .send pos channel value => by
      rw [stmt]
      exact keeps_add _
  | .step pos target => by
      rw [stmt]
      exact keeps_add _
  | .assign pos op targets values => by
      rw [stmt]
      exact keeps_add _
  | .go pos x => by
      rw [stmt]
      exact keeps_add _
  | .defer pos x => by
      rw [stmt]
      exact keeps_add _
  | .return pos results => by
      rw [stmt]
      exact .next (keeps_add _) keeps_enterNew
  | .branch pos kind target => by
      rw [stmt]
      exact keeps_branch kind target
  | .declare isVar specs => keeps_declare isVar specs
  | .block body => by
      rw [stmt]
      exact keeps_stmts body
  | .labeled inner s => keeps_labeled fun _ => keeps_stmt (some inner) s
  | .conditional init _ _ _ body otherwise =>
      keeps_conditional (keeps_opt init) (fun _ => keeps_stmts body)
        fun hno hdone => keeps_alternative hno hdone otherwise
  | .switch init _ clauses =>
      keeps_switch (keeps_opt init) (fun hdone => keeps_cases hdone (by simp) clauses)
        fun _ => keeps_fallbackBody clauses
  | .typeSwitch init guard clauses =>
      keeps_typeSwitch (keeps_opt init) (keeps_stmt none guard)
        (fun hdone => keeps_typeCases hdone clauses) fun _ => keeps_fallbackBody clauses
  | .select clauses =>
      keeps_select (keeps_communications clauses) (fun hdone => keeps_choices hdone clauses)
        fun _ => keeps_fallbackBody clauses
  | .loop init _ post body =>
      keeps_loop (keeps_opt init) (fun _ => keeps_stmts body)
        fun hnext hhead => keeps_advance hnext hhead post
  | .range _ _ _ body => keeps_range fun _ => keeps_stmts body

/-- The work on statements that follow each other keeps the numbers sound. -/
theorem keeps_stmts
    {n : Nat} :
    ∀ body : List Stmt, KeepsOn n (stmts stops body)
  | [] => by
      rw [stmts]
      exact keeps_skip
  | s :: rest => by
      rw [stmts]
      exact .next (keeps_stmt none s) (keeps_stmts rest)

theorem keeps_opt
    {n : Nat} :
    ∀ s : Option Stmt, KeepsOn n (opt stops s)
  | none => by
      rw [opt]
      exact keeps_skip
  | some s => by
      rw [opt]
      exact keeps_stmt none s

theorem keeps_alternative
    {n start done : Nat}
    (hstart : start < n)
    (hdone : done < n) :
    ∀ s : Option Stmt, KeepsOn n (alternative stops start done s)
  | none => by
      rw [alternative]
      exact keeps_skip
  | some s => by
      rw [alternative]
      exact keeps_detour hstart hdone (keeps_stmt none s)

theorem keeps_advance
    {n start head : Nat}
    (hstart : start < n)
    (hhead : head < n) :
    ∀ s : Option Stmt, KeepsOn n (advance stops start head s)
  | none => by
      rw [advance]
      exact keeps_skip
  | some s => by
      rw [advance]
      exact keeps_detour hstart hhead (keeps_stmt none s)

/-- The fallback that is found among clauses is placed. -/
theorem keeps_cases
    {n done : Nat} {prepared : Option Nat}
    (hdone : done < n)
    (hprepared : ∀ b ∈ prepared, b < n) :
    ∀ clauses : List Clause, Keeps n (cases stops done prepared clauses) FallbackBelow
  | [] => by
      rw [cases]
      exact .pure fun _ _ => by simp
  | .cases _ inner :: rest =>
      keeps_cases_cons hdone hprepared
        (fun _ _ h _ => (Clause.cases.inj h).2 ▸ keeps_stmts inner)
        fun h h' => keeps_cases h h' rest
  | .otherwise _ :: rest =>
      keeps_cases_cons hdone hprepared (fun _ _ h => nomatch h)
        fun h h' => keeps_cases h h' rest
  | .comm _ _ :: rest =>
      keeps_cases_cons hdone hprepared (fun _ _ h => nomatch h)
        fun h h' => keeps_cases h h' rest

theorem keeps_fallbackBody
    {n : Nat} :
    ∀ clauses : List Clause, KeepsOn n (fallbackBody stops clauses)
  | [] => by
      rw [fallbackBody]
      exact keeps_skip
  | .otherwise body :: rest => by
      rw [fallbackBody]
      split
      · exact keeps_fallbackBody rest
      · exact keeps_stmts body
  | .cases exprs body :: rest => by
      rw [fallbackBody]
      · exact keeps_fallbackBody rest
      · simp
  | .comm s body :: rest => by
      rw [fallbackBody]
      · exact keeps_fallbackBody rest
      · simp

theorem keeps_typeCases
    {n done : Nat}
    (hdone : done < n) :
    ∀ clauses : List Clause, KeepsOn n (typeCases stops done clauses)
  | [] => by
      rw [typeCases]
      exact keeps_skip
  | .cases _ inner :: rest =>
      keeps_typeCases_cons hdone (fun _ => keeps_stmts inner) fun h => keeps_typeCases h rest
  | .otherwise body :: rest => by
      rw [typeCases]
      · exact keeps_typeCases hdone rest
      · simp
  | .comm s body :: rest => by
      rw [typeCases]
      · exact keeps_typeCases hdone rest
      · simp

theorem keeps_communications
    {n : Nat} :
    ∀ clauses : List Clause, KeepsOn n (communications stops clauses)
  | [] => by
      rw [communications]
      exact keeps_skip
  | .comm s body :: rest => by
      rw [communications]
      exact .next (keeps_stmt none s) (keeps_communications rest)
  | .otherwise body :: rest => by
      rw [communications]
      · exact keeps_communications rest
      · simp
  | .cases exprs body :: rest => by
      rw [communications]
      · exact keeps_communications rest
      · simp

theorem keeps_choices
    {n done : Nat}
    (hdone : done < n) :
    ∀ clauses : List Clause, KeepsOn n (choices stops done clauses)
  | [] => by
      rw [choices]
      exact keeps_skip
  | .comm _ inner :: rest =>
      keeps_choices_cons hdone (fun _ => keeps_stmts inner) fun h => keeps_choices h rest
  | .otherwise body :: rest => by
      rw [choices]
      · exact keeps_choices hdone rest
      · simp
  | .cases exprs body :: rest => by
      rw [choices]
      · exact keeps_choices hdone rest
      · simp

end

end Syntax

end Draft

namespace FlowGraph

/-- There is a first block, and every block leads to blocks of the graph. -/
structure Closed (g : FlowGraph) : Prop where
  pos : 0 < g.size
  succs : ∀ b ∈ g, ∀ s ∈ b.succs, s < g.size

/-- Another step in a block leaves the edges as they are. -/
theorem Closed.modify
    {g : FlowGraph}
    (hg : g.Closed) (i : Nat) (s : Step) :
    Closed (g.modify i fun b => { b with steps := b.steps ++ [s] }) := by
  refine ⟨by simpa using hg.pos, ?_⟩
  intro b hb t ht
  rw [Array.size_modify]
  obtain ⟨j, hj, rfl⟩ := Array.getElem_of_mem hb
  have hj' : j < g.size := by simpa using hj
  refine hg.succs g[j] (Array.getElem_mem hj') t ?_
  rw [Array.getElem_modify] at ht
  split at ht <;> exact ht

/-- Every block of a body leads to blocks of the body. -/
theorem closed_ofBody
    (stops : Expr → Bool) (body : List Stmt) (stop : Int) :
    (ofBody stops body stop).Closed := by
  have hstart : Draft.Sound {} :=
    ⟨Nat.one_pos, by simp, by simp, by simp⟩
  have hkeeps : Draft.KeepsOn 1 (Draft.stmts stops body) := Draft.keeps_stmts body
  obtain ⟨hd, hle, -⟩ := hkeeps {} hstart (Nat.le_refl 1)
  have hclosed : Closed ((Draft.stmts stops body).run {}).2.blocks :=
    ⟨Nat.lt_of_lt_of_le Nat.one_pos hle, hd.succs⟩
  unfold ofBody
  generalize (Draft.stmts stops body).run {} = made at hclosed ⊢
  obtain ⟨_, d⟩ := made
  dsimp only
  split
  · exact hclosed.modify _ _
  · exact hclosed

end FlowGraph

end Source
end DefUse
