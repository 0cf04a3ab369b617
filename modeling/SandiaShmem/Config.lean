/-
Constants of the library: the sizes of the pSync arrays that `configure.ac` computes (for 4-byte `int` and 8-byte
`long`) and the fixed sizes of the team code in `src/shmem_team.c` and `src/shmem_team.h`.
-/
import Mathlib.Tactic

namespace SandiaShmem

/-! ## Sizes of the pSync arrays, in longs -/

def C_LOG_MAXPES : ℕ := 32

def SHMEM_BCAST_SYNC_SIZE : ℕ := 1

def SHMEM_REDUCE_SYNC_SIZE : ℕ := SHMEM_BCAST_SYNC_SIZE + 2 + C_LOG_MAXPES

/-- `sizeof_int * 8 * (sizeof_int / sizeof_long)`, a perl division -/
def SHMEM_BARRIER_SYNC_SIZE : ℕ := 4 * 8 * 4 / 8

def SHMEM_COLLECT_SYNC_SIZE : ℕ :=
  max (2 + SHMEM_BARRIER_SYNC_SIZE) (max (SHMEM_BCAST_SYNC_SIZE + 3) (4 * 8 * 4 / 8))

def SHMEM_ALLTOALL_SYNC_SIZE : ℕ := SHMEM_BARRIER_SYNC_SIZE

def SHMEM_ALLTOALLS_SYNC_SIZE : ℕ := SHMEM_BARRIER_SYNC_SIZE

def SHMEM_SYNC_SIZE : ℕ :=
  max SHMEM_BCAST_SYNC_SIZE (max SHMEM_REDUCE_SYNC_SIZE (max SHMEM_BARRIER_SYNC_SIZE
    (max SHMEM_COLLECT_SYNC_SIZE (max SHMEM_ALLTOALL_SYNC_SIZE SHMEM_ALLTOALLS_SYNC_SIZE))))

theorem sync_size_eq : SHMEM_SYNC_SIZE = 35 := by decide

/-- what a pSync holds between calls -/
abbrev SHMEM_SYNC_VALUE : ℤ := 0

/-! ## Teams -/

def CHAR_BIT : ℕ := 8

abbrev N_PSYNCS_PER_TEAM : ℕ := 2

def SHMEM_TEAM_WORLD_INDEX : ℕ := 0

def SHMEM_TEAM_SHARED_INDEX : ℕ := 1

def SHMEM_TEAMS_MIN : ℤ := 2

def N_PSYNC_BYTES : ℕ := 8

def PSYNC_CHUNK_SIZE : ℕ := N_PSYNCS_PER_TEAM * SHMEM_SYNC_SIZE

theorem chunk_size_eq : PSYNC_CHUNK_SIZE = 2 * SHMEM_SYNC_SIZE := rfl

end SandiaShmem
