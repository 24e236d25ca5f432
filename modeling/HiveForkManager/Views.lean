import HiveForkManager.HivedApi

namespace HiveForkManager

variable {ρ α : Type}

def newestNumAndForks (rows : List (Reversible Block)) : List (ℕ × ℕ) :=
  (newestForks rows).map (fun r ↦ (r.row.num, r.forkId))

variable {rows : List (Reversible Block)}

theorem mem_newestForks {r : Reversible Block} :
    r ∈ newestForks rows ↔
      r ∈ rows ∧ ∀ r' ∈ rows, r'.row.num = r.row.num → r'.forkId ≤ r.forkId := by
  rw [newestForks, List.mem_filter, List.all_eq_true]
  simp only [decide_eq_true_eq]

theorem exists_newestForks {r : Reversible Block} (hr : r ∈ rows) :
    ∃ r' ∈ newestForks rows, r'.row.num = r.row.num ∧ r.forkId ≤ r'.forkId := by
  have hr' : r ∈ rows.filter (fun x ↦ decide (x.row.num = r.row.num)) :=
    List.mem_filter.mpr ⟨hr, decide_eq_true rfl⟩
  cases hmax : (rows.filter (fun x ↦ decide (x.row.num = r.row.num))).argmax Reversible.forkId with
  | none =>
    rw [List.argmax_eq_none] at hmax
    rw [hmax] at hr'
    exact absurd hr' (by simp)
  | some m =>
    obtain ⟨hm, hnum⟩ := List.mem_filter.mp (List.argmax_mem hmax)
    have hnum' := of_decide_eq_true hnum
    refine ⟨m, mem_newestForks.mpr ⟨hm, fun x hx hxm ↦ ?_⟩, hnum', List.le_of_mem_argmax hr' hmax⟩
    have hx' : x ∈ rows.filter (fun x ↦ decide (x.row.num = r.row.num)) :=
      List.mem_filter.mpr ⟨hx, decide_eq_true (hxm.trans hnum')⟩
    exact List.le_of_mem_argmax hx' hmax

theorem mem_newestNumAndForks {nf : ℕ × ℕ} :
    nf ∈ newestNumAndForks rows ↔ ∃ r ∈ newestForks rows, (r.row.num, r.forkId) = nf :=
  List.mem_map

theorem mem_joinForks {blockNum : α → Option ℕ} {forks : List (ℕ × ℕ)}
    {rows : List (Reversible α)} {x : α} :
    x ∈ joinForks blockNum forks rows ↔ ∃ r ∈ rows, r.row = x ∧
      ∃ nf ∈ forks, blockNum x = some nf.1 ∧ r.forkId = nf.2 := by
  simp only [joinForks, List.mem_map, List.mem_filter, List.any_eq_true, decide_eq_true_eq]
  constructor
  · rintro ⟨r, ⟨hr, nf, hnf, hn, hf⟩, rfl⟩
    exact ⟨r, hr, rfl, nf, hnf, hn, hf⟩
  · rintro ⟨r, hr, rfl, nf, hnf, hn, hf⟩
    exact ⟨r, ⟨hr, nf, hnf, hn, hf⟩, rfl⟩

section HeadBlock

def Hafd.headForks (h : Hafd) : List (ℕ × ℕ) :=
  newestNumAndForks (h.reversible.blocks.filter (fun rb ↦ decide (h.irreversibleHead < rb.row.num)))

def Hafd.blocksView (h : Hafd) : List Block :=
  h.irreversible.blocks ++ joinForks (fun x ↦ some x.num) h.headForks h.reversible.blocks

def Hafd.transactionsView (h : Hafd) : List Transaction :=
  h.irreversible.transactions ++
    joinForks (fun x ↦ some x.blockNum) h.headForks h.reversible.transactions

/-- `hive.operations_view`, without the columns it derives from the others. -/
def Hafd.operationsView (h : Hafd) : List Operation :=
  h.irreversible.operations ++
    joinForks (fun x ↦ some (operationIdToBlockNum x.id)) h.headForks h.reversible.operations

end HeadBlock

namespace Context

def minBlock (c : Context ρ) : ℕ := min c.irreversibleBlock c.currentBlockNum

def reversibleRange (c : Context ρ) : Bool :=
  decide (c.irreversibleBlock < c.currentBlockNum) && c.isForking

def inRange (c : Context ρ) (num forkId : ℕ) : Prop :=
  c.reversibleRange ∧ c.irreversibleBlock < num ∧ forkId ≤ c.forkId ∧ num ≤ c.currentBlockNum

instance (c : Context ρ) (num forkId : ℕ) : Decidable (c.inRange num forkId) := by
  unfold inRange; infer_instance

def visibleForks (h : Hafd) (c : Context ρ) : List (ℕ × ℕ) :=
  newestNumAndForks (h.reversible.blocks.filter (fun rb ↦ decide (c.inRange rb.row.num rb.forkId)))

def view (blockNum : α → Option ℕ) (irreversible : List α) (reversible : List (Reversible α))
    (h : Hafd) (c : Context ρ) : List α :=
  irreversible.filter (fun x ↦ decide ((blockNum x).getD 1 ≤ c.minBlock)) ++
    joinForks blockNum (c.visibleForks h) reversible

def blocksView (h : Hafd) (c : Context ρ) : List Block :=
  c.view (fun x ↦ some x.num) h.irreversible.blocks h.reversible.blocks h

def transactionsView (h : Hafd) (c : Context ρ) : List Transaction :=
  c.view (fun x ↦ some x.blockNum) h.irreversible.transactions h.reversible.transactions h

def operationsView (h : Hafd) (c : Context ρ) : List Operation :=
  c.view (fun x ↦ some (operationIdToBlockNum x.id)) h.irreversible.operations
    h.reversible.operations h

def accountsView (h : Hafd) (c : Context ρ) : List (ℤ × String) :=
  (c.view Account.blockNum h.irreversible.accounts h.reversible.accounts h).map
    (fun a ↦ (a.id, a.name))

def accountOperationsView (h : Hafd) (c : Context ρ) : List AccountOperation :=
  c.view (fun x ↦ some (operationIdToBlockNum x.operationId)) h.irreversible.accountOperations
    h.reversible.accountOperations h

end Context

structure ContextViews where
  blocks : List Block
  transactions : List Transaction
  operations : List Operation
  accounts : List (ℤ × String)
  accountOperations : List AccountOperation
  deriving DecidableEq, Repr

def Context.views (h : Hafd) (c : Context ρ) : ContextViews where
  blocks := c.blocksView h
  transactions := c.transactionsView h
  operations := c.operationsView h
  accounts := c.accountsView h
  accountOperations := c.accountOperationsView h

end HiveForkManager
