import TChecker.Clockbounds.Map
import TChecker.Clockbounds.Local
import TChecker.Clockbounds.Global
import TChecker.Clockbounds.Bounds
import TChecker.Refzg.State
import TChecker.Reach.System
import TChecker.Reach.Graph
import TChecker.Reach.Waiting
import TChecker.Reach.Algorithm
import TChecker.Reach.Seed
import TChecker.Reach.Expand
import TChecker.Reach.Bookkeeping
import TChecker.Reach.Soundness
import TChecker.Reach.Completeness
import TChecker.Reach.Simulation
import TChecker.Reach.Exact
import TChecker.Reach.Termination
import TChecker.Reach.FromWaiting
import TChecker.Reach.Order
import TChecker.Reach.Frame
