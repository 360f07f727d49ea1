import Hux.Shares
import Hux.LaneKeys
import Hux.Retirement
import Hux.Cancel
import Hux.Isolation
import Hux.Parting
import Hux.Acceptance
import Hux.Answers
import Hux.Agreement
import Hux.Dialling
import Hux.Notices
import Hux.Lifetime
import Hux.Timely
import Hux.Landing
import Hux.WorkIds
import Hux.Window
import Hux.Teardown
import Hux.Reassembly
import Hux.Mappings
import Hux.Inbox
import Hux.Mlx5Prm
