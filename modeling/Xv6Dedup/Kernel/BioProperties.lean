import Xv6Dedup.Kernel.Bio
import Xv6Dedup.Base.Writes

/-!
# Buffer cache properties

Specifications of the buffer operations as state changes. They hold whichever
clean buffers are recycled, as long as recycling cannot be observed.
-/

set_option autoImplicit false

namespace Xv6Dedup

/-- Which parts of the hidden state are left open: the recycling of buffers, and
the memory after an `addrs` array. -/
structure Freedom where
  recycle : Bool
  garbage : Bool

def Freedom.full : Freedom := ⟨true, true⟩

/-- Any recycling, but zeroes after `addrs`. -/
def Freedom.tidy : Freedom := ⟨true, false⟩

/-- What is assumed of the hidden state. Where nothing is left open, no buffer is
recycled and the memory after an `addrs` array is zero. -/
structure MemoOk (free : Freedom) (memo : Memo) : Prop where
  recycle : free.recycle = false → memo.recycle = []
  garbage : free.garbage = false → memo.garbage = []
  counts : memo.refCount1 = 0 ∨ memo.refCount1 = 29 ∧ memo.refCount2 = 30

/-- Recycling buffers cannot be observed: it does not happen, or every idle
clean buffer agrees with the disk. -/
def Steady (free : Freedom) (state : State) : Prop :=
  free.recycle = false ∨ ∀ sector, (state.buf sector).busy = false →
    (state.buf sector).dirty = false → (state.buf sector).data = state.disk sector

abbrev FsWp {α : Type} (free : Freedom) (program : FsM α) (state : State)
    (Post : α → State → Prop) (Stops : Stop → State → Prop) : Prop :=
  Wp (MemoOk free) program state Post Stops

namespace State

def hold (state : State) (sector : Nat) : State :=
  state.setBuf sector { state.buf sector with busy := true }

def fill (state : State) (sector : Nat) (data : Block) : State :=
  state.setBuf sector { state.buf sector with data := data }

def release (state : State) (sector : Nat) : State :=
  state.setBuf sector { state.buf sector with busy := false }

@[simp] theorem setBuf_buf (state : State) (sector other : Nat) (buffer : Buf) : (state.setBuf sector buffer).buf other =
      if other = sector then buffer else state.buf other := by
  by_cases same : other = sector
  · subst other
    simp [setBuf]
  · simp [setBuf, same]

@[simp] theorem hold_buf (state : State) (sector other : Nat) : (state.hold sector).buf other =
      if other = sector then { state.buf sector with busy := true } else state.buf other :=
  setBuf_buf ..

@[simp] theorem fill_buf (state : State) (sector other : Nat) (data : Block) : (state.fill sector data).buf other =
      if other = sector then { state.buf sector with data := data } else state.buf other :=
  setBuf_buf ..

@[simp] theorem diskWrite_buf (state : State) (sector other : Nat) : (state.diskWrite sector).buf other =
      if other = sector then { state.buf sector with dirty := false } else state.buf other :=
  setBuf_buf ..

@[simp] theorem setBuf_setBuf (state : State) (sector : Nat) (first second : Buf) :
    (state.setBuf sector first).setBuf sector second = state.setBuf sector second := by
  simp [setBuf]

@[simp] theorem setBuf_self (state : State) (sector : Nat) : state.setBuf sector (state.buf sector) = state := by
  simp [setBuf]

theorem setBuf_eq_self {state : State} {sector : Nat} {buffer : Buf}
    (same : buffer = state.buf sector) : state.setBuf sector buffer = state := by
  subst same
  exact state.setBuf_self sector

theorem release_hold {state : State} {sector : Nat}
    (idle : (state.buf sector).busy = false) : (state.hold sector).release sector = state := by
  simp only [hold, release, setBuf_setBuf, setBuf_buf, if_true]
  apply setBuf_eq_self
  cases buffer : state.buf sector
  simp_all

theorem recycled_eq_self {free : Freedom} {state : State} (steady : Steady free state)
    (victims : List Nat) (none : free.recycle = false → victims = []) : state.recycled victims = state := by
  have same : (state.recycled victims).buf = state.buf := by
    funext sector
    simp only [recycled]
    split
    · rename_i chosen
      rcases steady with still | synced
      · simp [none still] at chosen
      · have agrees := synced sector chosen.2.1 chosen.2.2
        cases buffer : state.buf sector
        simp_all
    · rfl
  change { state with buf := (state.recycled victims).buf } = state
  rw [same]

end State

section

variable {free : Freedom} {state : State} (steady : Steady free state)
include steady

theorem Steady.setBuf_busy {sector : Nat} {buffer : Buf} (busy : buffer.busy = true) :
    Steady free (state.setBuf sector buffer) := by
  rcases steady with still | synced
  · exact .inl still
  · right
    intro other idle clean
    rw [State.setBuf_buf] at idle clean ⊢
    by_cases same : other = sector
    · simp [same, busy] at idle
    · simp only [same, if_false] at idle clean ⊢
      exact synced other idle clean

theorem Steady.hold (sector : Nat) : Steady free (state.hold sector) :=
  steady.setBuf_busy rfl

theorem Steady.fill {sector : Nat} (held : (state.buf sector).busy = true) (data : Block) :
    Steady free (state.fill sector data) :=
  steady.setBuf_busy held

end

section Specifications

variable {free : Freedom} {state : State} {Stops : Stop → State → Prop} {sector : Nat}

theorem bread_wp {Post : Nat → State → Prop} (steady : Steady free state)
    (idle : (state.buf sector).busy = false) (next : Post sector (state.hold sector)) :
    FsWp free (bread sector) state Post Stops := by
  refine Wp.bind (Wp.remembered ?_)
  intro memo allowed
  refine Wp.bind (Wp.remember ?_ ?_)
  · intro current ok
    exact ⟨fun still => by simp [ok.recycle still], ok.garbage, ok.counts⟩
  refine Wp.set ?_
  rw [State.recycled_eq_self steady _ fun still => by simp [allowed.recycle still]]
  refine Wp.see ?_
  rw [if_neg (by simp [idle])]
  exact Wp.set (Wp.pure next)

theorem bdata_wp {Post : Block → State → Prop} (held : (state.buf sector).busy = true)
    (next : Post (state.buf sector).data state) : FsWp free (bdata sector) state Post Stops := by
  refine Wp.see ?_
  rw [if_pos held]
  exact Wp.pure next

variable {Post : Unit → State → Prop}

variable (held : (state.buf sector).busy = true)
include held

theorem bset_wp {data : Block} (next : Post () (state.fill sector data)) :
    FsWp free (bset sector data) state Post Stops := by
  refine Wp.see ?_
  rw [if_pos held]
  exact Wp.change next

theorem bwrite_wp (next : Post () (state.diskWrite sector)) : FsWp free (bwrite sector) state Post Stops := by
  refine Wp.see ?_
  rw [if_pos held]
  exact Wp.change next

theorem brelse_wp (next : Post () (state.release sector)) : FsWp free (brelse sector) state Post Stops := by
  refine Wp.see ?_
  rw [if_pos held]
  exact Wp.change next

end Specifications

end Xv6Dedup
